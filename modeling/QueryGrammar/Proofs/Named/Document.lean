import QueryGrammar.Proofs.Named.Rows
/-!
The document of a draft of which everything is used. How its rows are written settles which semantics
and categories are listed, so drafts that define the same have the same document exactly when their
rows are written alike.
-/
namespace QueryGrammar

namespace Rows

variable (R : Rows)

/-- The symbol has a row that is written like this. -/
def Writes (name key : String) : Prop := ∃ row, R name row ∧ row.sortKey = key

def Attached (name : String) : Prop :=
  ∃ symbol row a, R symbol row ∧ row.semantic = some a ∧ name ∈ a.names

def Placed (category : String) : Prop := ∃ symbol row, R symbol row ∧ row.rhs = .placeholder category

variable {R} {S : Rows}

theorem Writes.exists_alike {name : String} {row : NamedRule} (hrow : R name row)
    (h : ∀ name key, R.Writes name key → S.Writes name key) : ∃ other, S name other ∧
      other.Alike row := by
  obtain ⟨other, hother, hkey⟩ := h name row.sortKey ⟨row, hrow, rfl⟩
  exact ⟨other, hother, NamedRule.alike_of_sortKey_eq hkey⟩

theorem Attached.of_writes {name : String} (hname : R.Attached name)
    (h : ∀ name key, R.Writes name key → S.Writes name key) : S.Attached name := by
  obtain ⟨symbol, row, a, hrow, ha, hmem⟩ := hname
  obtain ⟨other, hother, halike⟩ := Writes.exists_alike hrow h
  exact ⟨symbol, other, a, hother, halike.semantic.trans ha, hmem⟩

theorem Placed.of_writes {category : String} (hcategory : R.Placed category)
    (h : ∀ name key, R.Writes name key → S.Writes name key) : S.Placed category := by
  obtain ⟨symbol, row, hrow, hrhs⟩ := hcategory
  obtain ⟨other, hother, halike⟩ := Writes.exists_alike hrow h
  exact ⟨symbol, other, hother, halike.rhs.trans hrhs⟩

end Rows

namespace Draft

variable {d e : Draft}

/-- An entity category as it was registered. -/
def HasCategory (d : Draft) (name : String) (instances : List String) : Prop :=
  ∃ c ∈ d.entityCategories, c.name = name ∧ c.instances = instances

/-- The drafts define the same semantics and categories. -/
structure SameTerms (d e : Draft) : Prop where
  definitions : ∀ s, s ∈ d.vocabulary.definitions ↔ s ∈ e.vocabulary.definitions
  categories : ∀ name instances, d.HasCategory name instances ↔ e.HasCategory name instances

theorem SameTerms.symm (h : SameTerms d e) : SameTerms e d :=
  ⟨fun s => (h.definitions s).symm, fun name instances => (h.categories name instances).symm⟩

/-! ### Semantics -/

section Semantics

variable (hd : d.Consistent)
include hd

theorem Consistent.attached_iff {s : Semantic} (hs : s ∈ d.vocabulary.definitions) :
    d.HasRow.Attached s.name ↔ ∃ id, d.vocabulary.get? id = some s ∧ d.Attaches id := by
  constructor
  · rintro ⟨_, _, a, ⟨X, r, hr, -, rfl⟩, ha, hmem⟩
    obtain ⟨b, hb, rfl⟩ := Option.map_eq_some_iff.mp
      (show r.semantic.map d.vocabulary.namedAttachment = some a from ha)
    rw [Vocabulary.names_namedAttachment] at hmem
    obtain ⟨id, hid, hname⟩ := List.mem_map.mp hmem
    obtain ⟨i, hi, rfl⟩ := List.mem_iff_getElem.mp hs
    have hget : d.vocabulary.get? ⟨i⟩ = some d.vocabulary.definitions[i] :=
      List.getElem?_eq_getElem hi
    have hlt := (hd.rules X r hr).semantics b hb id hid
    rw [← Vocabulary.name_of_get? hget] at hname
    obtain rfl := Vocabulary.name_inj hd.definitions hlt hi hname
    exact ⟨_, hget, X, r, hr, b, hb, hid⟩
  · rintro ⟨id, hget, X, r, hr, a, ha, hid⟩
    refine ⟨_, _, d.vocabulary.namedAttachment a, ⟨X, r, hr, rfl, rfl⟩, ?_, ?_⟩
    · simp [namedRule, ha]
    · rw [Vocabulary.names_namedAttachment, ← Vocabulary.name_of_get? hget]
      exact List.mem_map_of_mem hid

/-- The semantics of the document are those that are live. -/
theorem Consistent.mem_semanticTraits_live_iff {name : String} {traits : SemanticTraits} :
    (name, traits) ∈ d.semanticTraits.entries ↔ ∃ id ∈ d.liveSemantics, ∃ s,
      d.vocabulary.get? id = some s ∧ s.name = name ∧ SemanticTraits.ofDefinition s = traits := by
  have hunique : ∀ p ∈ (d.liveSemantics.filterMap fun id => (d.vocabulary.get? id).map fun s =>
      (s.name, SemanticTraits.ofDefinition s)), ∃ id s, d.vocabulary.get? id = some s ∧
        p = (s.name, SemanticTraits.ofDefinition s) := by
    intro p hp
    obtain ⟨id, -, hid⟩ := List.mem_filterMap.mp hp
    obtain ⟨s, hget, rfl⟩ := Option.map_eq_some_iff.mp hid
    exact ⟨id, s, hget, rfl⟩
  rw [semanticTraits, SortedMap.mem_entries_ofList_iff fun p hp q hq hkey => ?_]
  rotate_left
  · obtain ⟨id, s, hget, rfl⟩ := hunique p hp
    obtain ⟨id', t, hget', rfl⟩ := hunique q hq
    have hname := (Vocabulary.name_of_get? hget).trans
      (hkey.trans (Vocabulary.name_of_get? hget').symm)
    obtain rfl := Vocabulary.name_inj hd.definitions (List.getElem?_eq_some_iff.mp hget).1
      (List.getElem?_eq_some_iff.mp hget').1 hname
    rw [Option.some.inj (hget.symm.trans hget')]
  simp only [List.mem_filterMap, Option.map_eq_some_iff, Prod.mk.injEq]

variable (hu : d.Used) (hlive : d.AttachesLive)
include hu hlive

/-- The semantics of the document are those that are defined and that some row attaches. -/
theorem Consistent.mem_semanticTraits_iff {name : String} {traits : SemanticTraits} :
    (name, traits) ∈ d.semanticTraits.entries ↔ ∃ s ∈ d.vocabulary.definitions, s.name = name ∧
      SemanticTraits.ofDefinition s = traits ∧ d.HasRow.Attached name := by
  rw [hd.mem_semanticTraits_live_iff]
  constructor
  · rintro ⟨id, hid, s, hget, rfl, htraits⟩
    have hs : s ∈ d.vocabulary.definitions := List.mem_of_getElem? hget
    exact ⟨s, hs, rfl, htraits, (hd.attached_iff hs).mpr ⟨id, hget, hu.semantics id hid⟩⟩
  · rintro ⟨s, hs, rfl, htraits, hattached⟩
    obtain ⟨id, hget, hid⟩ := (hd.attached_iff hs).mp hattached
    exact ⟨id, hlive id hid, s, hget, rfl, htraits⟩

end Semantics

/-! ### Entity categories -/

theorem entityCategory_injective : Function.Injective Name.entityCategory := by
  intro a b h
  have hlist : a.toList = b.toList := by
    simpa [Name.entityCategory] using congrArg String.toList h
  exact String.toList_inj.mp hlist

theorem entityCategoryName_of_some {id : EntityCategoryId} {c : EntityCategory}
    (h : d.entityCategory? id = some c) :
    c ∈ d.entityCategories ∧ d.entityCategoryName id = Name.entityCategory c.name := by
  obtain ⟨hget, -⟩ := Option.filter_eq_some_iff.mp h
  exact ⟨List.mem_of_getElem? hget, by rw [entityCategoryName, hget]⟩

section Categories

variable (hnames : (d.entityCategories.map (·.name)).Nodup)
include hnames

/-- The categories of the document are those that are live. -/
theorem mem_categoryInstances_live_iff {name : String} {instances : List String} :
    (name, instances) ∈ d.categoryInstances.entries ↔ ∃ id c, d.entityCategory? id = some c ∧
      Name.entityCategory c.name = name ∧ c.instances = instances := by
  have hpair : ∀ p ∈ (d.liveEntityCategories.filterMap fun id => (d.entityCategory? id).map fun c =>
      (d.entityCategoryName id, c.instances)), ∃ id c,
        d.entityCategory? id = some c ∧ p = (Name.entityCategory c.name, c.instances) := by
    intro p hp
    obtain ⟨id, -, hsome⟩ := List.mem_filterMap.mp hp
    obtain ⟨c, hc, rfl⟩ := Option.map_eq_some_iff.mp hsome
    exact ⟨id, c, hc, by rw [(entityCategoryName_of_some hc).2]⟩
  rw [categoryInstances, SortedMap.mem_entries_ofList_iff fun p hp q hq hkey => ?_]
  rotate_left
  · obtain ⟨id, c, hc, rfl⟩ := hpair p hp
    obtain ⟨id', k, hk, rfl⟩ := hpair q hq
    rw [List.inj_on_of_nodup_map hnames (entityCategoryName_of_some hc).1
      (entityCategoryName_of_some hk).1 (entityCategory_injective hkey)]
  constructor
  · intro h
    obtain ⟨id, c, hc, heq⟩ := hpair _ h
    obtain ⟨rfl, rfl⟩ := Prod.mk.inj heq
    exact ⟨id, c, hc, rfl, rfl⟩
  · rintro ⟨id, c, hc, rfl, rfl⟩
    exact List.mem_filterMap.mpr ⟨id, mem_liveEntityCategories_iff.mpr ⟨c, hc⟩,
      Option.map_eq_some_iff.mpr ⟨c, hc, by rw [(entityCategoryName_of_some hc).2]⟩⟩

variable (hd : d.Consistent) (hu : d.Used)
include hd hu

/-- The categories of the document are those that are defined and that some row reads. -/
theorem Consistent.mem_categoryInstances_iff {name : String} {instances : List String} :
    (name, instances) ∈ d.categoryInstances.entries ↔ ∃ stem, Name.entityCategory stem = name ∧
      d.HasCategory stem instances ∧ d.HasRow.Placed name := by
  rw [mem_categoryInstances_live_iff hnames]
  constructor
  · rintro ⟨id, c, hc, rfl, rfl⟩
    obtain ⟨hmem, hname⟩ := entityCategoryName_of_some hc
    obtain ⟨X, r, hr, hx⟩ := hu.entityCategories id (mem_liveEntityCategories_iff.mpr ⟨c, hc⟩)
    refine ⟨c.name, rfl, ⟨c, hmem, rfl, rfl⟩, d.symbolName X, d.namedRule r, ⟨X, r, hr, rfl, rfl⟩, ?_⟩
    simp [namedRule, namedExpansion, hx, hname]
  · rintro ⟨stem, rfl, ⟨c, hmem, rfl, rfl⟩, _, _, ⟨X, r, hr, -, rfl⟩, hrhs⟩
    obtain ⟨id, hx, hname⟩ := placeholder_of_namedRule hrhs
    obtain ⟨k, hk⟩ := mem_liveEntityCategories_iff.mp ((hd.rules X r hr).category id hx)
    obtain ⟨hkmem, hkname⟩ := entityCategoryName_of_some hk
    obtain rfl := List.inj_on_of_nodup_map hnames hkmem hmem
      (entityCategory_injective (hkname.symm.trans hname))
    exact ⟨id, k, hk, rfl, rfl⟩

end Categories

/-! ### Rule sets -/

section RuleSets

variable (hd : d.Consistent)
include hd

theorem Consistent.writes_iff {X : SymbolId} (hX : X ∈ d.liveSymbols) {key : String} :
    d.HasRow.Writes (d.symbolName X) key ↔
      key ∈ ((d.rules X).map d.namedRule).map NamedRule.sortKey := by
  simp only [List.map_map, List.mem_map]
  constructor
  · rintro ⟨row, hrow, rfl⟩
    obtain ⟨r, hr, rfl⟩ := hd.exists_of_hasRow hX hrow
    exact ⟨r, hr, rfl⟩
  · rintro ⟨r, hr, rfl⟩
    exact ⟨d.namedRule r, ⟨X, r, hr, rfl, rfl⟩, rfl⟩

/-- Rule sets as they are written. -/
theorem Consistent.mem_written_ruleSets_iff {name : String} {j : Json} :
    (name, j) ∈ d.ruleSets.entries.map (fun e => (e.1, Json.array (e.2.map NamedRule.toJson))) ↔
      ∃ X ∈ d.liveSymbols, d.symbolName X = name ∧
        .array ((NamedRule.canonical ((d.rules X).map d.namedRule)).map NamedRule.toJson) = j := by
  have hfind : ∀ rows, (name, rows) ∈ d.ruleSets.entries ↔ d.ruleSets.find? name = some rows :=
    fun rows => ⟨Keyed.find?_of_mem d.ruleSets.ascending.nodup_keys, Keyed.mem_of_find?⟩
  simp only [List.mem_map, Prod.exists, Prod.mk.injEq]
  constructor
  · rintro ⟨_, rows, hmem, rfl, rfl⟩
    obtain ⟨X, hX, hname, rfl⟩ := (find?_ruleSets_iff hd.names).mp ((hfind rows).mp hmem)
    exact ⟨X, hX, hname, rfl⟩
  · rintro ⟨X, hX, rfl, rfl⟩
    exact ⟨_, _, (hfind _).mpr (find?_ruleSets hd.names hX), rfl, rfl⟩

end RuleSets

/-! ### Documents -/

section Documents

variable (hd : d.Consistent) (he : e.Consistent)
include hd he

/-- The rule sets are written the same exactly when the rows of all symbols are. -/
theorem Consistent.mapJson_ruleSets_eq_iff (hdu : d.Used) (heu : e.Used) :
    Document.mapJson (fun rules => .array (rules.map NamedRule.toJson)) d.ruleSets =
        Document.mapJson (fun rules => .array (rules.map NamedRule.toJson)) e.ruleSets ↔
      ∀ name key, d.HasRow.Writes name key ↔ e.HasRow.Writes name key := by
  have hto : ∀ {d e : Draft}, d.Consistent → e.Consistent →
      Document.mapJson (fun rules => .array (rules.map NamedRule.toJson)) d.ruleSets =
        Document.mapJson (fun rules => .array (rules.map NamedRule.toJson)) e.ruleSets →
      ∀ name key, d.HasRow.Writes name key → e.HasRow.Writes name key := by
    rintro d e hd he h name key ⟨_, ⟨X, r, hr, rfl, rfl⟩, rfl⟩
    have hentry := hd.mem_written_ruleSets_iff.mpr ⟨X, live_of_mem_rules hr, rfl, rfl⟩
    rw [Json.record_inj h] at hentry
    obtain ⟨Y, hY, hname, hrows⟩ := he.mem_written_ruleSets_iff.mp hentry
    obtain ⟨kept, hkept, hkey⟩ := Keyed.exists_mem_distinct NamedRule.sortKey
      (List.mem_map_of_mem (f := d.namedRule) hr)
    have hjson : kept.toJson ∈
        (NamedRule.canonical ((e.rules Y).map e.namedRule)).map NamedRule.toJson := by
      rw [Json.array.inj hrows]
      exact List.mem_map_of_mem hkept
    obtain ⟨row, hrow, heq⟩ := List.mem_map.mp hjson
    obtain ⟨q, hq, rfl⟩ := List.mem_map.mp (NamedRule.mem_of_mem_canonical hrow)
    exact ⟨e.namedRule q, ⟨Y, q, hq, hname, rfl⟩, (congrArg Json.toCompact heq).trans hkey⟩
  refine ⟨fun h name key => ⟨hto hd he h name key, hto he hd h.symm name key⟩, fun h => ?_⟩
  have hof : ∀ {d e : Draft}, d.Consistent → e.Consistent → d.Used →
      (∀ name key, d.HasRow.Writes name key ↔ e.HasRow.Writes name key) → ∀ {name : String} {j : Json},
      (name, j) ∈ d.ruleSets.entries.map (fun e => (e.1, Json.array (e.2.map NamedRule.toJson))) →
        (name, j) ∈
          e.ruleSets.entries.map (fun e => (e.1, Json.array (e.2.map NamedRule.toJson))) := by
    intro d e hd he hu h name j hmem
    obtain ⟨X, hX, rfl, rfl⟩ := hd.mem_written_ruleSets_iff.mp hmem
    obtain ⟨r, hr⟩ := hu.occurs X hX
    obtain ⟨_, ⟨Y, q, hq, hname, rfl⟩, -⟩ :=
      (h _ _).mp ⟨d.namedRule r, ⟨X, r, hr.expands.1, rfl, rfl⟩, rfl⟩
    have hY := live_of_mem_rules hq
    refine he.mem_written_ruleSets_iff.mpr ⟨Y, hY, hname, ?_⟩
    rw [NamedRule.toJson_canonical_eq fun key => ?_]
    rw [← he.writes_iff hY, ← hd.writes_iff hX, hname]
    exact (h _ _).symm
  have hsorted : ∀ d : Draft, Keyed.Ascending
      (d.ruleSets.entries.map fun e => (e.1, Json.array (e.2.map NamedRule.toJson))) :=
    fun d => List.pairwise_map.mpr d.ruleSets.ascending
  rw [Document.mapJson, Document.mapJson, (hsorted d).eq_of_mem_iff (hsorted e)]
  exact fun p => ⟨hof hd he hdu h, hof he hd heu fun name key => (h name key).symm⟩

theorem Consistent.semanticTraits_eq (h : SameTerms d e) (hdu : d.Used) (heu : e.Used)
    (hdlive : d.AttachesLive) (helive : e.AttachesLive)
    (hrows : ∀ name key, d.HasRow.Writes name key ↔ e.HasRow.Writes name key) :
    d.semanticTraits = e.semanticTraits := by
  apply SortedMap.ext_entries
  apply d.semanticTraits.ascending.eq_of_mem_iff e.semanticTraits.ascending
  rintro ⟨name, traits⟩
  have hattached : d.HasRow.Attached name ↔ e.HasRow.Attached name :=
    ⟨fun h => h.of_writes fun name key => (hrows name key).mp,
      fun h => h.of_writes fun name key => (hrows name key).mpr⟩
  rw [hd.mem_semanticTraits_iff hdu hdlive, he.mem_semanticTraits_iff heu helive]
  simp only [h.definitions, hattached]

theorem Consistent.categoryInstances_eq (h : SameTerms d e) (hdu : d.Used) (heu : e.Used)
    (hdnames : (d.entityCategories.map (·.name)).Nodup)
    (henames : (e.entityCategories.map (·.name)).Nodup)
    (hrows : ∀ name key, d.HasRow.Writes name key ↔ e.HasRow.Writes name key) :
    d.categoryInstances = e.categoryInstances := by
  apply SortedMap.ext_entries
  apply d.categoryInstances.ascending.eq_of_mem_iff e.categoryInstances.ascending
  rintro ⟨name, instances⟩
  have hplaced : d.HasRow.Placed name ↔ e.HasRow.Placed name :=
    ⟨fun h => h.of_writes fun name key => (hrows name key).mp,
      fun h => h.of_writes fun name key => (hrows name key).mpr⟩
  rw [hd.mem_categoryInstances_iff hdnames hdu, he.mem_categoryInstances_iff henames heu]
  simp only [h.categories, hplaced]

end Documents

end Draft

namespace Document

variable {d e : Draft}

theorem digest_ofDraft (d : Draft) : (ofDraft d).digest = (ofDraft d).contentDigest := by
  simp only [ofDraft, contentDigest, content, contentMembers]

/-- The content settles the digest, and with the start symbol the whole document. -/
theorem toJson_ofDraft_eq_iff (hstart : d.symbolName Draft.start = e.symbolName Draft.start) :
    (ofDraft d).toJson = (ofDraft e).toJson ↔
      (ofDraft d).contentMembers = (ofDraft e).contentMembers := by
  constructor
  · intro h
    exact List.append_inj_right' (Json.record_inj h) rfl
  · intro h
    have hdigest : (ofDraft d).digest = (ofDraft e).digest := by
      rw [digest_ofDraft, digest_ofDraft, contentDigest, contentDigest, content, content, h]
    have hsymbol : (ofDraft d).startSymbol = (ofDraft e).startSymbol := hstart
    rw [toJson, toJson, h, hdigest, hsymbol]
    rfl

end Document

end QueryGrammar
