import Mathlib.Data.Set.Function
import QueryGrammar.Proofs.Document.Faithful
import QueryGrammar.Proofs.Named.Document
/-!
Drafts that differ in their numbers only. Symbols, semantics and entity categories may be registered
in another order, and the rules of a symbol too, some of them more than once; names, definitions and
instances are the same. Such drafts have the same document, because a document goes by names and
keeps everything in order.
-/
namespace QueryGrammar

/-- Other numbers for what is registered. -/
structure Renumbering where
  symbol : SymbolId → SymbolId
  semantic : SemanticId → SemanticId
  category : EntityCategoryId → EntityCategoryId

namespace Renumbering

variable (f : Renumbering)

mutual

def node : Node → Node
  | .mk s children => .mk (f.semantic s) (forest children)

def forest : List Node → List Node
  | [] => []
  | n :: ns => node n :: forest ns

end

def attachment : Attachment → Attachment
  | .fixed nodes => .fixed (f.forest nodes)
  | .deferred chain => .deferred (chain.map f.semantic)

def expansion : Expansion → Expansion
  | .unary part noInsertion => .unary (f.symbol part) noInsertion
  | .binary first second cost excluded => .binary (f.symbol first) (f.symbol second) cost excluded
  | .terminal term text => .terminal term text
  | .sequence first second text => .sequence (f.symbol first) (second.map f.symbol) text
  | .placeholder category => .placeholder (f.category category)

def edit : Edit → Edit
  | .insertion i => .insertion { i with semantic := i.semantic.map f.forest }
  | .transposition cost => .transposition cost

def rule (r : Rule) : Rule :=
  { r with
    expansion := f.expansion r.expansion
    semantic := r.semantic.map f.attachment
    edit := r.edit.map f.edit }

/-- The draft `e` holds under the new numbers what `d` holds. -/
structure Carries (d e : Draft) : Prop where
  symbols : Set.BijOn f.symbol {X | X ∈ d.liveSymbols} {X | X ∈ e.liveSymbols}
  names : ∀ X ∈ d.liveSymbols, e.symbolName (f.symbol X) = d.symbolName X
  start : f.symbol Draft.start = Draft.start
  semantics : Set.BijOn f.semantic {id | id.index < d.vocabulary.size}
    {id | id.index < e.vocabulary.size}
  definitions : ∀ id : SemanticId, id.index < d.vocabulary.size →
    e.vocabulary.get? (f.semantic id) = d.vocabulary.get? id
  liveSemantics : ∀ id : SemanticId, id.index < d.vocabulary.size →
    (f.semantic id ∈ e.liveSemantics ↔ id ∈ d.liveSemantics)
  categories : Set.BijOn f.category {id | id ∈ d.liveEntityCategories}
    {id | id ∈ e.liveEntityCategories}
  instances : ∀ id c, d.entityCategory? id = some c → ∃ k,
    e.entityCategory? (f.category id) = some k ∧ k.name = c.name ∧ k.instances = c.instances
  rules : ∀ X ∈ d.liveSymbols, ∀ r, r ∈ e.rules (f.symbol X) ↔ r ∈ (d.rules X).map f.rule

/-! ### Names under new numbers -/

section Named

variable {f} {v w : Vocabulary}

mutual

theorem namedNode_eq
    (hname : ∀ id : SemanticId, id.index < v.size → w.name (f.semantic id) = v.name id) :
    (n : Node) → (∀ id ∈ n.ids, id.index < v.size) → w.namedNode (f.node n) = v.namedNode n
  | .mk s children, hids => by
    have hs := hname s (hids s (by simp [Node.ids]))
    have hchildren := namedNodes_eq hname children fun id hid => hids id (by simp [Node.ids, hid])
    rw [node, Vocabulary.namedNode, Vocabulary.namedNode, hs, hchildren]

theorem namedNodes_eq
    (hname : ∀ id : SemanticId, id.index < v.size → w.name (f.semantic id) = v.name id) :
    (ns : List Node) → (∀ id ∈ Node.forestIds ns, id.index < v.size) →
      w.namedNodes (f.forest ns) = v.namedNodes ns
  | [], _ => rfl
  | n :: ns, hids => by
    have hn := namedNode_eq hname n fun id hid => hids id (by simp [Node.forestIds, hid])
    have hns := namedNodes_eq hname ns fun id hid => hids id (by simp [Node.forestIds, hid])
    rw [forest, Vocabulary.namedNodes, Vocabulary.namedNodes, hn, hns]

end

variable (hname : ∀ id : SemanticId, id.index < v.size → w.name (f.semantic id) = v.name id)
include hname

theorem namedAttachment_eq {a : Attachment} (hids : ∀ id ∈ a.ids, id.index < v.size) :
    w.namedAttachment (f.attachment a) = v.namedAttachment a := by
  cases a with
  | fixed nodes =>
    rw [attachment, Vocabulary.namedAttachment, Vocabulary.namedAttachment,
      namedNodes_eq hname nodes hids]
  | deferred chain =>
    rw [attachment, Vocabulary.namedAttachment, Vocabulary.namedAttachment, List.map_map]
    exact congrArg NamedAttachment.deferred
      (List.map_congr_left fun id hid => hname id (hids id hid))

theorem namedEdit_eq {x : Edit} (hids : ∀ i forest, x = .insertion i → i.semantic = some forest →
    ∀ id ∈ Node.forestIds forest, id.index < v.size) : w.namedEdit (f.edit x) = v.namedEdit x := by
  cases x with
  | transposition cost => rfl
  | insertion i =>
    have hsemantic : (i.semantic.map f.forest).map w.namedNodes = i.semantic.map v.namedNodes := by
      rw [Option.map_map]
      exact Option.map_congr fun forest hforest =>
        namedNodes_eq hname forest (hids i forest rfl hforest)
    simp only [edit, Vocabulary.namedEdit, hsemantic]

end Named

section Carried

variable {f} {d e : Draft} (h : f.Carries d e)
include h

theorem Carries.name_eq {id : SemanticId} (hid : id.index < d.vocabulary.size) :
    e.vocabulary.name (f.semantic id) = d.vocabulary.name id := by
  rw [Vocabulary.name, h.definitions id hid, Vocabulary.name]

theorem Carries.entityCategoryName_eq {id : EntityCategoryId} (hid : id ∈ d.liveEntityCategories) :
    e.entityCategoryName (f.category id) = d.entityCategoryName id := by
  obtain ⟨c, hc⟩ := Draft.mem_liveEntityCategories_iff.mp hid
  obtain ⟨k, hk, hname, -⟩ := h.instances id c hc
  rw [(Draft.entityCategoryName_of_some hk).2, (Draft.entityCategoryName_of_some hc).2, hname]

variable (hd : d.Consistent)
include hd

theorem Carries.namedExpansion_eq {X : SymbolId} {r : Rule} (hr : r ∈ d.rules X) :
    e.namedExpansion (f.expansion r.expansion) = d.namedExpansion r.expansion := by
  have hfit := hd.rules X r hr
  have hparts := fun Y hY => h.names Y (hfit.parts Y hY)
  cases hx : r.expansion with
  | unary part noInsertion =>
    have hpart := hparts part (by simp [hx, Expansion.parts])
    simp only [expansion, Draft.namedExpansion, hpart]
  | binary first second cost excluded =>
    have hfirst := hparts first (by simp [hx, Expansion.parts])
    have hsecond := hparts second (by simp [hx, Expansion.parts])
    simp only [expansion, Draft.namedExpansion, hfirst, hsecond]
  | terminal term text => rfl
  | sequence first second text =>
    have hnames : (f.symbol first :: (second.map f.symbol).toList).map e.symbolName =
        (first :: second.toList).map d.symbolName := by
      cases second with
      | none => simp [hparts first (by simp [hx, Expansion.parts])]
      | some second =>
        simp [hparts first (by simp [hx, Expansion.parts]),
          hparts second (by simp [hx, Expansion.parts])]
    simp only [expansion, Draft.namedExpansion, hnames]
  | placeholder category =>
    simp only [expansion, Draft.namedExpansion, h.entityCategoryName_eq (hfit.category category hx)]

/-- The row of a rule does not show its numbers. -/
theorem Carries.namedRule_eq {X : SymbolId} {r : Rule} (hr : r ∈ d.rules X) :
    e.namedRule (f.rule r) = d.namedRule r := by
  have hfit := hd.rules X r hr
  have hexpansion := h.namedExpansion_eq hd hr
  have hsemantic : (r.semantic.map f.attachment).map e.vocabulary.namedAttachment =
      r.semantic.map d.vocabulary.namedAttachment := by
    rw [Option.map_map]
    exact Option.map_congr fun a ha =>
      namedAttachment_eq (fun _ hid => h.name_eq hid) (hfit.semantics a ha)
  have hedit : (r.edit.map f.edit).map e.vocabulary.namedEdit =
      r.edit.map d.vocabulary.namedEdit := by
    rw [Option.map_map]
    refine Option.map_congr fun x hx => namedEdit_eq (fun _ hid => h.name_eq hid) ?_
    intro i forest hi hforest id hid
    obtain ⟨Y, q, a, hq, ha, hmem⟩ := (hd.edits X r hr x hx).inserted i forest hi hforest id hid
    exact (hd.rules Y q hq.expands.1).semantics a ha id hmem
  simp only [rule, Draft.namedRule, hexpansion, hsemantic, hedit]

theorem Carries.mem_rows_iff {X : SymbolId} (hX : X ∈ d.liveSymbols) {row : NamedRule} :
    row ∈ (e.rules (f.symbol X)).map e.namedRule ↔ row ∈ (d.rules X).map d.namedRule := by
  simp only [List.mem_map]
  constructor
  · rintro ⟨r, hr, rfl⟩
    obtain ⟨q, hq, rfl⟩ := List.mem_map.mp ((h.rules X hX r).mp hr)
    exact ⟨q, hq, (h.namedRule_eq hd hq).symm⟩
  · rintro ⟨q, hq, rfl⟩
    exact ⟨f.rule q, (h.rules X hX _).mpr (List.mem_map_of_mem hq), h.namedRule_eq hd hq⟩

end Carried

end Renumbering

/-! ### The same document -/

namespace Renumbering

variable {f : Renumbering} {d e : Draft}

section Document

variable (h : f.Carries d e) (hd : d.Consistent) (he : e.Consistent)
include h hd he

theorem Carries.ruleSets_eq (hapart : ∀ X, ∀ r ∈ d.rules X, ∀ q ∈ d.rules X,
      (d.namedRule r).sortKey = (d.namedRule q).sortKey → d.namedRule r = d.namedRule q) :
    d.ruleSets = e.ruleSets := by
  have hcanonical : ∀ X ∈ d.liveSymbols,
      NamedRule.canonical ((d.rules X).map d.namedRule) =
        NamedRule.canonical ((e.rules (f.symbol X)).map e.namedRule) := by
    intro X hX
    apply NamedRule.canonical_eq fun row => (h.mem_rows_iff hd hX).symm
    intro a ha b hb hkey
    obtain ⟨r, hr, rfl⟩ := List.mem_map.mp ha
    obtain ⟨q, hq, rfl⟩ := List.mem_map.mp hb
    exact hapart X r hr q hq hkey
  have hfind : ∀ (d : Draft) {name : String} {rows : List NamedRule},
      (name, rows) ∈ d.ruleSets.entries ↔ d.ruleSets.find? name = some rows :=
    fun d => ⟨Keyed.find?_of_mem d.ruleSets.ascending.nodup_keys, Keyed.mem_of_find?⟩
  apply SortedMap.ext_entries
  apply d.ruleSets.ascending.eq_of_mem_iff e.ruleSets.ascending
  rintro ⟨name, rows⟩
  rw [hfind, hfind, Draft.find?_ruleSets_iff hd.names, Draft.find?_ruleSets_iff he.names]
  constructor
  · rintro ⟨X, hX, rfl, rfl⟩
    exact ⟨f.symbol X, h.symbols.mapsTo hX, h.names X hX, (hcanonical X hX).symm⟩
  · rintro ⟨Y, hY, rfl, rfl⟩
    obtain ⟨X, hX, rfl⟩ := h.symbols.surjOn hY
    exact ⟨X, hX, (h.names X hX).symm, hcanonical X hX⟩

theorem Carries.semanticTraits_eq : d.semanticTraits = e.semanticTraits := by
  apply SortedMap.ext_entries
  apply d.semanticTraits.ascending.eq_of_mem_iff e.semanticTraits.ascending
  rintro ⟨name, traits⟩
  rw [hd.mem_semanticTraits_live_iff, he.mem_semanticTraits_live_iff]
  constructor
  · rintro ⟨id, hid, s, hs, rfl, rfl⟩
    have hlt := (Draft.mem_liveSemantics_iff.mp hid).1
    exact ⟨f.semantic id, (h.liveSemantics id hlt).mpr hid, s, (h.definitions id hlt).trans hs,
      rfl, rfl⟩
  · rintro ⟨id', hid', s, hs, rfl, rfl⟩
    obtain ⟨id, hlt, rfl⟩ := h.semantics.surjOn (Draft.mem_liveSemantics_iff.mp hid').1
    exact ⟨id, (h.liveSemantics id hlt).mp hid', s, (h.definitions id hlt).symm.trans hs, rfl, rfl⟩

omit hd he in
theorem Carries.categoryInstances_eq (hdnames : (d.entityCategories.map (·.name)).Nodup)
    (henames : (e.entityCategories.map (·.name)).Nodup) :
    d.categoryInstances = e.categoryInstances := by
  apply SortedMap.ext_entries
  apply d.categoryInstances.ascending.eq_of_mem_iff e.categoryInstances.ascending
  rintro ⟨name, instances⟩
  rw [Draft.mem_categoryInstances_live_iff hdnames, Draft.mem_categoryInstances_live_iff henames]
  constructor
  · rintro ⟨id, c, hc, rfl, rfl⟩
    obtain ⟨k, hk, hname, hinstances⟩ := h.instances id c hc
    exact ⟨f.category id, k, hk, by rw [hname], hinstances⟩
  · rintro ⟨id', k, hk, rfl, rfl⟩
    obtain ⟨id, hid, rfl⟩ :=
      h.categories.surjOn (Draft.mem_liveEntityCategories_iff.mpr ⟨k, hk⟩)
    obtain ⟨c, hc⟩ := Draft.mem_liveEntityCategories_iff.mp hid
    obtain ⟨k', hk', hname, hinstances⟩ := h.instances id c hc
    obtain rfl := Option.some.inj (hk.symm.trans hk')
    exact ⟨id, c, hc, by rw [hname], hinstances.symm⟩

/-- Where rows are told apart by how they are written, the document does not show the numbers. -/
theorem Carries.ofDraft_eq (hdnames : (d.entityCategories.map (·.name)).Nodup)
    (henames : (e.entityCategories.map (·.name)).Nodup)
    (hapart : ∀ X, ∀ r ∈ d.rules X, ∀ q ∈ d.rules X,
      (d.namedRule r).sortKey = (d.namedRule q).sortKey → d.namedRule r = d.namedRule q) :
    Document.ofDraft d = Document.ofDraft e := by
  have hstart : d.symbolName Draft.start = e.symbolName Draft.start := by
    rw [← h.names Draft.start hd.startLive, h.start]
  simp only [Document.ofDraft, hstart, h.ruleSets_eq hd he hapart, h.semanticTraits_eq hd he,
    h.categoryInstances_eq hdnames henames]

end Document

end Renumbering

end QueryGrammar
