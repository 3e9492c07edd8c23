import QueryGrammar.Proofs.Draft.Renumbered
import QueryGrammar.Proofs.Semantic.Union
/-!
Compositions under other numbers. A program composes with names, but nodes hold the numbers that the
names were registered under. Siblings are sorted and told apart by their texts, in which only names
occur, and a refusal is worded with names; so the numbers do not matter, and what one registration
order composes is what another composes, renumbered.
-/
namespace QueryGrammar

/-- A composition as it is written down, with its semantics by name. -/
inductive Composition where
  | nothing
  | leaf (name : String)
  | reduce (parent : String) (children : Composition)
  | merge (first second : Composition)
  | apply (chain : List String) (children : Composition)

namespace Vocabulary

/-- The semantic of a name. -/
def resolve (v : Vocabulary) (name : String) : Outcome SemanticId :=
  match v.find? name with
  | some id => .ok id
  | none => .error (.unknownSemantic name)

/-- Accepts a chain of functions that are given by name. -/
def deferNamed (v : Vocabulary) (names : List String) : Outcome Chain := do
  v.defer (← names.mapM v.resolve)

/-- The tree of a composition. -/
def compose (v : Vocabulary) : Composition → Outcome Forest
  | .nothing => .ok []
  | .leaf name => do v.leaf (← v.resolve name)
  | .reduce parent children => do
    let id ← v.resolve parent
    v.reduce id (← v.compose children)
  | .merge first second => do
    let a ← v.compose first
    v.merge a (← v.compose second)
  | .apply names children => do
    let chain ← v.deferNamed names
    v.applyChain chain (← v.compose children)

/-- The number in `w` of what has the same name in `v`; the numbers of symbols and entity categories
stay. -/
def renumbering (v w : Vocabulary) : Renumbering where
  symbol := id
  semantic s := (w.find? (v.name s)).getD s
  category := id

/-- The vocabularies have the same definitions, in whatever order they were registered. -/
def SameDefinitions (v w : Vocabulary) : Prop := ∀ d, d ∈ v.definitions ↔ d ∈ w.definitions

variable {v w : Vocabulary}

/-! ### Numbers and names -/

theorem Grown.find?_eq_some_iff (hv : v.Grown) {name : String} {id : SemanticId} :
    v.find? name = some id ↔ ∃ d, v.get? id = some d ∧ d.name = name := by
  have hfound : ∀ id, v.find? name = some id → ∃ d, v.get? id = some d ∧ d.name = name := by
    intro id h
    obtain ⟨i, hi, rfl⟩ := Option.map_eq_some_iff.mp h
    obtain ⟨hlt, hmatch, -⟩ := List.findIdx?_eq_some_iff_getElem.mp hi
    exact ⟨_, List.getElem?_eq_getElem hlt, by simpa using hmatch⟩
  refine ⟨hfound id, ?_⟩
  rintro ⟨d, hd, rfl⟩
  cases hfind : v.find? d.name with
  | none =>
    have hnone := List.findIdx?_eq_none_iff.mp (Option.map_eq_none_iff.mp hfind) d
      (List.mem_of_getElem? hd)
    simp at hnone
  | some other =>
    obtain ⟨k, hk, hname⟩ := hfound other hfind
    have hsame : v.name other = v.name id := by rw [name_of_get? hk, name_of_get? hd, hname]
    rw [name_inj hv.nodup_names (registered_of_get? hk) (registered_of_get? hd) hsame]

section Renumbered

variable (hv : v.Grown) (hw : w.Grown) (hsame : v.SameDefinitions w)
include hw hsame

/-- The new number has the definition of the old one. -/
theorem get?_renumbering {id : SemanticId} {d : Semantic} (hd : v.get? id = some d) :
    w.get? ((v.renumbering w).semantic id) = some d := by
  obtain ⟨i, hi⟩ := List.mem_iff_getElem?.mp ((hsame d).mp (List.mem_of_getElem? hd))
  have hfind : w.find? d.name = some ⟨i⟩ := hw.find?_eq_some_iff.mpr ⟨d, hi, rfl⟩
  have hnumber : (v.renumbering w).semantic id = ⟨i⟩ := by
    change (w.find? (v.name id)).getD id = ⟨i⟩
    rw [name_of_get? hd, hfind, Option.getD_some]
  rw [hnumber]
  exact hi

theorem get?_renumbering_eq {id : SemanticId} (hid : v.Registered id) :
    w.get? ((v.renumbering w).semantic id) = v.get? id := by
  obtain ⟨d, hd⟩ := hid.exists_get?
  rw [get?_renumbering hw hsame hd, hd]

theorem name_renumbering {id : SemanticId} (hid : v.Registered id) :
    w.name ((v.renumbering w).semantic id) = v.name id := by
  rw [name, name, get?_renumbering_eq hw hsame hid]

theorem definition_renumbering {id : SemanticId} (hid : v.Registered id) :
    w.definition ((v.renumbering w).semantic id) = v.definition id := by
  obtain ⟨d, hd⟩ := hid.exists_get?
  rw [definition, definition, get?_renumbering hw hsame hd, hd]

include hv

theorem renumbering_inj {id other : SemanticId} (hid : v.Registered id)
    (hother : v.Registered other)
    (h : (v.renumbering w).semantic id = (v.renumbering w).semantic other) : id = other := by
  apply name_inj hv.nodup_names hid hother
  rw [← name_renumbering hw hsame hid, h, name_renumbering hw hsame hother]

theorem bijOn_renumbering :
    Set.BijOn (v.renumbering w).semantic {id | v.Registered id} {id | w.Registered id} := by
  refine ⟨?_, ?_, ?_⟩
  · intro id hid
    obtain ⟨d, hd⟩ := Registered.exists_get? hid
    exact registered_of_get? (get?_renumbering hw hsame hd)
  · exact fun id hid other hother h => renumbering_inj hv hw hsame hid hother h
  · intro id hid
    obtain ⟨d, hd⟩ := Registered.exists_get? hid
    obtain ⟨i, hi⟩ := List.mem_iff_getElem?.mp ((hsame d).mpr (List.mem_of_getElem? hd))
    refine ⟨⟨i⟩, registered_of_get? hi, ?_⟩
    apply name_inj hw.nodup_names (registered_of_get? (get?_renumbering hw hsame hi)) hid
    rw [name_of_get? (get?_renumbering hw hsame hi), name_of_get? hd]

/-- A name is found in both vocabularies or in none. -/
theorem resolve_renumbering (name : String) :
    w.resolve name = (v.resolve name).map (v.renumbering w).semantic := by
  cases hfind : v.find? name with
  | some id =>
    obtain ⟨d, hd, hname⟩ := hv.find?_eq_some_iff.mp hfind
    have hfound := hw.find?_eq_some_iff.mpr ⟨d, get?_renumbering hw hsame hd, hname⟩
    rw [resolve, resolve, hfind, hfound]
    rfl
  | none =>
    have hnone : w.find? name = none := by
      by_contra hsome
      obtain ⟨id, hid⟩ := Option.ne_none_iff_exists'.mp hsome
      obtain ⟨d, hd, hname⟩ := hw.find?_eq_some_iff.mp hid
      obtain ⟨i, hi⟩ := List.mem_iff_getElem?.mp ((hsame d).mpr (List.mem_of_getElem? hd))
      have hfound := hv.find?_eq_some_iff.mpr ⟨d, hi, hname⟩
      rw [hfind] at hfound
      cases hfound
    rw [resolve, resolve, hfind, hnone]
    rfl

end Renumbered

end Vocabulary

/-! ### Trees under new numbers -/

namespace Renumbering

variable (f : Renumbering)

theorem forest_eq_map (ns : List Node) : f.forest ns = ns.map f.node := by
  induction ns with
  | nil => rfl
  | cons n ns ih => rw [forest, ih, List.map_cons]

theorem semantic_node (n : Node) : (f.node n).semantic = f.semantic n.semantic := by
  cases n
  rfl

mutual

theorem ids_node : (n : Node) → (f.node n).ids = n.ids.map f.semantic
  | .mk s children => by
    rw [node, Node.ids, Node.ids, List.map_cons, forestIds_forest children]

theorem forestIds_forest : (ns : List Node) →
    Node.forestIds (f.forest ns) = (Node.forestIds ns).map f.semantic
  | [] => rfl
  | n :: ns => by
    rw [forest, Node.forestIds, Node.forestIds, List.map_append, ids_node n, forestIds_forest ns]

end

end Renumbering

namespace Vocabulary

variable {v w : Vocabulary}

mutual

theorem renderNode_renumbering (hw : w.Grown) (hsame : v.SameDefinitions w) :
    (n : Node) → (∀ id ∈ n.ids, v.Registered id) →
    w.renderNode ((v.renumbering w).node n) = v.renderNode n
  | .mk s children, hids => by
    have hs : v.Registered s := hids s (by simp [Node.ids])
    have hchildren := renderNodes_renumbering hw hsame children fun id hid =>
      hids id (by simp [Node.ids, hid])
    have hempty : ((v.renumbering w).forest children).isEmpty = children.isEmpty := by
      cases children <;> rfl
    rw [Renumbering.node, renderNode, renderNode, hchildren, hempty,
      get?_renumbering_eq hw hsame hs, name_renumbering hw hsame hs]

theorem renderNodes_renumbering (hw : w.Grown) (hsame : v.SameDefinitions w) :
    (ns : List Node) → (∀ id ∈ Node.forestIds ns, v.Registered id) →
    w.renderNodes ((v.renumbering w).forest ns) = v.renderNodes ns
  | [], _ => by rw [Renumbering.forest, renderNodes, renderNodes]
  | n :: ns, hids => by
    have hn := renderNode_renumbering hw hsame n fun id hid =>
      hids id (by simp [Node.forestIds, hid])
    have hns := renderNodes_renumbering hw hsame ns fun id hid =>
      hids id (by simp [Node.forestIds, hid])
    rw [Renumbering.forest, renderNodes, renderNodes, hn, hns]

end

section Renumbered

variable (hv : v.Grown) (hw : w.Grown) (hsame : v.SameDefinitions w)
include hw hsame

theorem render_renumbering {forest : Forest}
    (hforest : ∀ id ∈ Node.forestIds forest, v.Registered id) :
    w.render ((v.renumbering w).forest forest) = v.render forest := by
  rw [render, render, renderNodes_renumbering hw hsame forest hforest]

theorem renderAttachment_renumbering {a : Attachment} (ha : ∀ id ∈ a.ids, v.Registered id) :
    w.renderAttachment ((v.renumbering w).attachment a) = v.renderAttachment a := by
  cases a with
  | fixed forest => exact render_renumbering hw hsame ha
  | deferred chain =>
    have hnames : (chain.map (v.renumbering w).semantic).map (fun id => w.name id ++ "(") =
        chain.map fun id => v.name id ++ "(" := by
      rw [List.map_map]
      exact List.map_congr_left fun id hid =>
        congrArg (· ++ "(") (name_renumbering hw hsame (ha id hid))
    rw [Renumbering.attachment, renderAttachment, renderAttachment, hnames, List.length_map]

include hv

theorem checkSoleHeads_renumbering {nodes : List Node}
    (hnodes : ∀ id ∈ Node.forestIds nodes, v.Registered id) (seen : List SemanticId)
    (hseen : ∀ id ∈ seen, v.Registered id) :
    w.checkSoleHeads (seen.map (v.renumbering w).semantic) ((v.renumbering w).forest nodes) =
      v.checkSoleHeads seen nodes := by
  induction nodes generalizing seen with
  | nil => rfl
  | cons n nodes ih =>
    have hn : v.Registered n.semantic :=
      hnodes _ (Node.mem_forestIds_iff.mpr ⟨n, List.mem_cons_self, n.semantic_mem_ids⟩)
    have hrest : ∀ id ∈ Node.forestIds nodes, v.Registered id :=
      fun id hid => hnodes id (by simp [Node.forestIds, hid])
    obtain ⟨d, hd⟩ := hn.exists_get?
    have hsemantic := (v.renumbering w).semantic_node n
    have hd' : w.get? ((v.renumbering w).node n).semantic = some d := by
      rw [hsemantic]
      exact get?_renumbering hw hsame hd
    have hmet : ((v.renumbering w).node n).semantic ∈ seen.map (v.renumbering w).semantic ↔
        n.semantic ∈ seen := by
      rw [hsemantic]
      constructor
      · intro h
        obtain ⟨id, hid, heq⟩ := List.mem_map.mp h
        exact renumbering_inj hv hw hsame (hseen id hid) hn heq ▸ hid
      · exact List.mem_map_of_mem
    have hgrown := ih hrest (n.semantic :: seen) (List.forall_mem_cons.mpr ⟨hn, hseen⟩)
    rw [List.map_cons, ← hsemantic] at hgrown
    rw [Renumbering.forest, checkSoleHeads_cons hd', checkSoleHeads_cons hd, hgrown,
      ih hrest seen hseen]
    simp only [hmet]

theorem distinct_renumbering {nodes : List Node}
    (hnodes : ∀ id ∈ Node.forestIds nodes, v.Registered id) :
    Keyed.distinct w.renderNode ((v.renumbering w).forest nodes) =
      (v.renumbering w).forest (Keyed.distinct v.renderNode nodes) := by
  have hmem : ∀ n, n ∈ Keyed.distinct v.renderNode nodes ↔ n ∈ nodes :=
    fun _ => mem_distinct_renderNode_iff hv hnodes
  have hmoved : ∀ id ∈ Node.forestIds ((v.renumbering w).forest nodes), w.Registered id := by
    rw [Renumbering.forestIds_forest, List.forall_mem_map]
    exact fun id hid => (bijOn_renumbering hv hw hsame).mapsTo (hnodes id hid)
  have hrender : ∀ n ∈ nodes, w.renderNode ((v.renumbering w).node n) = v.renderNode n :=
    fun n hn => renderNode_renumbering hw hsame n fun id hid =>
      hnodes id (Node.mem_forestIds_iff.mpr ⟨n, hn, hid⟩)
  -- Both sides are in the order of the same texts, so it is enough that they have the same nodes.
  apply Keyed.eq_of_pairwise_of_mem_iff w.renderNode (Keyed.pairwise_distinct _ _)
  · rw [Renumbering.forest_eq_map, List.pairwise_map]
    refine (Keyed.pairwise_distinct v.renderNode nodes).imp_of_mem fun {a b} ha hb hab => ?_
    rw [hrender a ((hmem a).mp ha), hrender b ((hmem b).mp hb)]
    exact hab
  · intro n
    rw [mem_distinct_renderNode_iff hw hmoved, Renumbering.forest_eq_map, Renumbering.forest_eq_map,
      List.mem_map, List.mem_map]
    simp only [hmem]

/-! ### Every step -/

theorem merge_renumbering {a b : Forest} (ha : ∀ id ∈ Node.forestIds a, v.Registered id)
    (hb : ∀ id ∈ Node.forestIds b, v.Registered id) :
    w.merge ((v.renumbering w).forest a) ((v.renumbering w).forest b) =
      (v.merge a b).map (v.renumbering w).forest := by
  have happend : (v.renumbering w).forest a ++ (v.renumbering w).forest b =
      (v.renumbering w).forest (a ++ b) := by
    simp only [Renumbering.forest_eq_map, List.map_append]
  have hids : ∀ id ∈ Node.forestIds (a ++ b), v.Registered id := by
    rw [Node.forestIds_append, List.forall_mem_append]
    exact ⟨ha, hb⟩
  have hkept : ∀ id ∈ Node.forestIds (Keyed.distinct v.renderNode (a ++ b)), v.Registered id :=
    fun id hid => hids id (Node.forestIds_mono (fun _ => Keyed.mem_of_mem_distinct) hid)
  have hcheck : w.checkSoleHeads [] _ = v.checkSoleHeads [] _ :=
    checkSoleHeads_renumbering hv hw hsame hkept [] (by simp)
  rw [merge, merge, canonical, canonical, happend, distinct_renumbering hv hw hsame hids, hcheck]
  cases v.checkSoleHeads [] (Keyed.distinct v.renderNode (a ++ b)) <;> rfl

omit hv in
theorem leaf_renumbering {id : SemanticId} (hid : v.Registered id) :
    w.leaf ((v.renumbering w).semantic id) = (v.leaf id).map (v.renumbering w).forest := by
  rw [leaf, leaf, definition_renumbering hw hsame hid]
  cases v.definition id with
  | error e => rfl
  | ok d =>
    simp only [bind, Except.bind]
    split <;> rfl

theorem reduce_renumbering {parent : SemanticId} (hparent : v.Registered parent) {children : Forest}
    (hchildren : ∀ id ∈ Node.forestIds children, v.Registered id) :
    w.reduce ((v.renumbering w).semantic parent) ((v.renumbering w).forest children) =
      (v.reduce parent children).map (v.renumbering w).forest := by
  have hcheck : w.checkSoleHeads [] _ = v.checkSoleHeads [] _ :=
    checkSoleHeads_renumbering hv hw hsame hchildren [] (by simp)
  have hlength : ((v.renumbering w).forest children).length = children.length := by
    rw [Renumbering.forest_eq_map, List.length_map]
  unfold reduce
  rw [definition_renumbering hw hsame hparent, hcheck, hlength]
  cases v.definition parent with
  | error e => rfl
  | ok d =>
    simp only [bind, Except.bind]
    split
    · rfl
    · cases v.checkSoleHeads [] children with
      | error e => rfl
      | ok u =>
        simp only []
        split <;> rfl

theorem applyChain_renumbering {chain : Chain} (hchain : ∀ id ∈ chain, v.Registered id)
    {children : Forest} (hchildren : ∀ id ∈ Node.forestIds children, v.Registered id) :
    w.applyChain (chain.map (v.renumbering w).semantic) ((v.renumbering w).forest children) =
      (v.applyChain chain children).map (v.renumbering w).forest := by
  induction chain with
  | nil => rfl
  | cons id chain ih =>
    obtain ⟨hid, hchain⟩ := List.forall_mem_cons.mp hchain
    rw [List.map_cons, applyChain, applyChain, ih hchain]
    apply Outcome.map_bind_eq
    intro inner hinner
    refine reduce_renumbering hv hw hsame hid fun other hother => ?_
    exact (mem_of_applyChain hinner hother).elim (hchain other) (hchildren other)

omit hv in
theorem defer_renumbering {chain : List SemanticId} (hchain : ∀ id ∈ chain, v.Registered id) :
    w.defer (chain.map (v.renumbering w).semantic) =
      (v.defer chain).map (List.map (v.renumbering w).semantic) := by
  have hfunctions : (chain.map (v.renumbering w).semantic).forM (fun id => do
      let d ← w.definition id
      if d.isArg then throw (.argumentApplied d.name)) = (chain.forM fun id => do
        let d ← v.definition id
        if d.isArg then throw (.argumentApplied d.name) : Outcome Unit) :=
    Outcome.forM_map_eq fun id hid => by rw [definition_renumbering hw hsame (hchain id hid)]
  have hsingle : (chain.dropLast.map (v.renumbering w).semantic).forM (fun id => do
      let d ← w.definition id
      if 1 < d.minParams then throw (.argumentCount d.name d.minParams d.maxParams 1)) =
        (chain.dropLast.forM fun id => do
          let d ← v.definition id
          if 1 < d.minParams then throw (.argumentCount d.name d.minParams d.maxParams 1) :
            Outcome Unit) :=
    Outcome.forM_map_eq fun id hid => by
      rw [definition_renumbering hw hsame (hchain id (List.mem_of_mem_dropLast hid))]
  unfold defer
  rw [hfunctions, ← List.map_dropLast, hsingle, List.isEmpty_map]
  split
  · rfl
  · simp only [bind, Except.bind]
    split
    · rfl
    · split <;> rfl

end Renumbered

/-! ### Programs -/

theorem Grown.registered_of_resolve (hv : v.Grown) {name : String} {id : SemanticId}
    (h : v.resolve name = .ok id) : v.Registered id := by
  unfold resolve at h
  split at h
  next found hfind =>
    cases h
    obtain ⟨d, hd, -⟩ := hv.find?_eq_some_iff.mp hfind
    exact registered_of_get? hd
  next => cases h

theorem Grown.registered_of_deferNamed (hv : v.Grown) {names : List String} {chain : Chain}
    (h : v.deferNamed names = .ok chain) : ∀ id ∈ chain, v.Registered id := by
  obtain ⟨ids, hids, h⟩ := Outcome.ok_of_bind h
  intro id hid
  obtain rfl := eq_of_defer h
  obtain ⟨name, -, hname⟩ := Outcome.exists_of_mem_mapM hids id hid
  exact hv.registered_of_resolve hname

/-- Whatever a program composes is registered. -/
theorem Grown.registered_of_compose (hv : v.Grown) {p : Composition} {forest : Forest}
    (h : v.compose p = .ok forest) : ∀ id ∈ Node.forestIds forest, v.Registered id := by
  induction p generalizing forest with
  | nothing =>
    cases h
    simp [Node.forestIds]
  | leaf name =>
    obtain ⟨id, hid, h⟩ := Outcome.ok_of_bind h
    exact (canonical_leaf h).registered
  | reduce parent children ih =>
    obtain ⟨id, hid, h⟩ := Outcome.ok_of_bind h
    obtain ⟨inner, hinner, h⟩ := Outcome.ok_of_bind h
    intro other hother
    rcases mem_of_reduce h hother with rfl | hother
    · exact hv.registered_of_resolve hid
    · exact ih hinner other hother
  | merge first second ihFirst ihSecond =>
    obtain ⟨a, ha, h⟩ := Outcome.ok_of_bind h
    obtain ⟨b, hb, h⟩ := Outcome.ok_of_bind h
    intro other hother
    exact (mem_of_merge h hother).elim (ihFirst ha other) (ihSecond hb other)
  | apply names children ih =>
    obtain ⟨chain, hchain, h⟩ := Outcome.ok_of_bind h
    obtain ⟨inner, hinner, h⟩ := Outcome.ok_of_bind h
    intro other hother
    exact (mem_of_applyChain h hother).elim (hv.registered_of_deferNamed hchain other)
      (ih hinner other)

section Programs

variable (hv : v.Grown) (hw : w.Grown) (hsame : v.SameDefinitions w)
include hv hw hsame

theorem deferNamed_renumbering (names : List String) :
    w.deferNamed names = (v.deferNamed names).map (List.map (v.renumbering w).semantic) := by
  have hresolved : names.mapM w.resolve =
      (names.mapM v.resolve).map (List.map (v.renumbering w).semantic) :=
    Outcome.mapM_eq_map_mapM fun name _ => resolve_renumbering hv hw hsame name
  rw [deferNamed, deferNamed, hresolved]
  apply Outcome.map_bind_eq
  intro chain hchain
  refine defer_renumbering hw hsame fun id hid => ?_
  obtain ⟨name, -, hname⟩ := Outcome.exists_of_mem_mapM hchain id hid
  exact hv.registered_of_resolve hname

/-- Both vocabularies compose the same, up to the numbers. -/
theorem compose_renumbering (p : Composition) :
    w.compose p = (v.compose p).map (v.renumbering w).forest := by
  induction p with
  | nothing => rfl
  | leaf name =>
    rw [compose, compose, resolve_renumbering hv hw hsame]
    apply Outcome.map_bind_eq
    intro id hid
    exact leaf_renumbering hw hsame (hv.registered_of_resolve hid)
  | reduce parent children ih =>
    rw [compose, compose, resolve_renumbering hv hw hsame, ih]
    apply Outcome.map_bind_eq
    intro id hid
    apply Outcome.map_bind_eq
    intro forest hforest
    exact reduce_renumbering hv hw hsame (hv.registered_of_resolve hid)
      (hv.registered_of_compose hforest)
  | merge first second ihFirst ihSecond =>
    rw [compose, compose, ihFirst, ihSecond]
    apply Outcome.map_bind_eq
    intro a ha
    apply Outcome.map_bind_eq
    intro b hb
    exact merge_renumbering hv hw hsame (hv.registered_of_compose ha) (hv.registered_of_compose hb)
  | apply names children ih =>
    rw [compose, compose, deferNamed_renumbering hv hw hsame, ih]
    apply Outcome.map_bind_eq
    intro chain hchain
    apply Outcome.map_bind_eq
    intro forest hforest
    exact applyChain_renumbering hv hw hsame (hv.registered_of_deferNamed hchain)
      (hv.registered_of_compose hforest)

/-- The order of registration shows in no composition. Where the same definitions are registered in
another order, names lead to other numbers, one to one; every program fails with the same error or
yields the same tree under its new numbers, written the same; and so does every chain. -/
theorem Grown.compose_renumbered :
    Set.BijOn (v.renumbering w).semantic {id | v.Registered id} {id | w.Registered id} ∧
    (∀ id, v.Registered id → w.name ((v.renumbering w).semantic id) = v.name id) ∧
    (∀ p, w.compose p = (v.compose p).map (v.renumbering w).forest ∧
      ∀ forest, v.compose p = .ok forest →
        w.render ((v.renumbering w).forest forest) = v.render forest) ∧
    ∀ names, w.deferNamed names =
        (v.deferNamed names).map (List.map (v.renumbering w).semantic) ∧
      ∀ chain, v.deferNamed names = .ok chain →
        w.renderAttachment (.deferred (chain.map (v.renumbering w).semantic)) =
          v.renderAttachment (.deferred chain) := by
  refine ⟨bijOn_renumbering hv hw hsame, fun id hid => name_renumbering hw hsame hid, ?_, ?_⟩
  · intro p
    refine ⟨compose_renumbering hv hw hsame p, fun forest hforest => ?_⟩
    exact render_renumbering hw hsame (hv.registered_of_compose hforest)
  · intro names
    refine ⟨deferNamed_renumbering hv hw hsame names, fun chain hchain => ?_⟩
    exact renderAttachment_renumbering hw hsame (a := .deferred chain)
      (hv.registered_of_deferNamed hchain)

end Programs

/-- The definitions of `followers` in the opposite order. -/
def followersReversed : Vocabulary := ⟨followers.definitions.reverse⟩

theorem grown_followersReversed : followersReversed.Grown := by
  have hnot : Grown ⟨[{ Semantic.function "not" 1 1 with forbidsMultiple := true }]⟩ :=
    .register .start (show Vocabulary.register {}
      { Semantic.function "not" 1 1 with forbidsMultiple := true } = .ok (⟨0⟩, _) from rfl)
  have hfollowed : Grown ⟨[{ Semantic.function "not" 1 1 with forbidsMultiple := true },
      .function "followed-by" 1 1]⟩ :=
    hnot.register (show Vocabulary.register _ (.function "followed-by" 1 1) = .ok (⟨1⟩, _) from rfl)
  exact hfollowed.register
    (show Vocabulary.register _ (.argument "me") = .ok (⟨2⟩, followersReversed) from rfl)

/-- The tree `me,not(followed-by(me))` has the same text under both numberings, and the siblings
`not(me)` and `not(followed-by(me))` are refused under both. -/
theorem compose_renumbered_followers : followers.SameDefinitions followersReversed ∧
    followersReversed.compose (.merge (.apply ["not", "followed-by"] (.leaf "me")) (.leaf "me")) =
      .ok [.mk ⟨2⟩ [], .mk ⟨0⟩ [.mk ⟨1⟩ [.mk ⟨2⟩ []]]] ∧
    followersReversed.render [.mk ⟨2⟩ [], .mk ⟨0⟩ [.mk ⟨1⟩ [.mk ⟨2⟩ []]]] =
      followers.render meNotFollowed ∧
    followersReversed.compose (.merge (.reduce "not" (.leaf "me"))
      (.apply ["not", "followed-by"] (.leaf "me"))) = .error (.forbiddenMultiple "not") := by
  have hsame : followers.SameDefinitions followersReversed := fun _ => List.mem_reverse.symm
  have hcomposed : followers.compose
      (.merge (.apply ["not", "followed-by"] (.leaf "me")) (.leaf "me")) = .ok meNotFollowed := rfl
  have hrefused : followers.compose (.merge (.reduce "not" (.leaf "me"))
      (.apply ["not", "followed-by"] (.leaf "me"))) = .error (.forbiddenMultiple "not") := rfl
  obtain ⟨-, -, hprograms, -⟩ := grown_followers.compose_renumbered grown_followersReversed hsame
  obtain ⟨heq, hrender⟩ := hprograms
    (.merge (.apply ["not", "followed-by"] (.leaf "me")) (.leaf "me"))
  refine ⟨hsame, ?_, hrender meNotFollowed hcomposed, ?_⟩
  · rw [heq, hcomposed]
    rfl
  · rw [(hprograms _).1, hrefused]
    rfl

end Vocabulary

end QueryGrammar
