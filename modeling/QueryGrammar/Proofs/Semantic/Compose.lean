import QueryGrammar.Proofs.Change
import QueryGrammar.Proofs.Order.Keyed
import QueryGrammar.Semantic.Vocabulary
/-!
Composition brings in no semantics: whatever occurs in a composed forest occurred in what it was
composed of.
-/
namespace QueryGrammar

theorem Node.mem_forestIds_iff {id : SemanticId} {forest : Forest} :
    id ∈ Node.forestIds forest ↔ ∃ n ∈ forest, id ∈ n.ids := by
  induction forest with
  | nil => simp [Node.forestIds]
  | cons n ns ih => simp [Node.forestIds, ih]

theorem Node.forestIds_append (a b : Forest) :
    Node.forestIds (a ++ b) = Node.forestIds a ++ Node.forestIds b := by
  induction a with
  | nil => rfl
  | cons n ns ih => rw [List.cons_append, forestIds, forestIds, ih, List.append_assoc]

theorem Node.forestIds_mono {a b : Forest} (h : ∀ n ∈ a, n ∈ b) {id : SemanticId}
    (hid : id ∈ Node.forestIds a) : id ∈ Node.forestIds b := by
  obtain ⟨n, hn, hid⟩ := mem_forestIds_iff.mp hid
  exact mem_forestIds_iff.mpr ⟨n, h n hn, hid⟩

theorem Node.semantic_mem_ids (n : Node) : n.semantic ∈ n.ids := by
  cases n
  simp [semantic, ids]

namespace Vocabulary

variable {v : Vocabulary} {id : SemanticId}

/-- What is registered has a name of its own, a cost and the next number. -/
theorem register_eq {w : Vocabulary} {definition : Semantic}
    (h : v.register definition = .ok (id, w)) :
    Name.isPart definition.name = true ∧ (∀ k ∈ v.definitions, k.name ≠ definition.name) ∧
      isCost definition.cost = true ∧ id = ⟨v.size⟩ ∧ w = ⟨v.definitions ++ [definition]⟩ := by
  unfold register at h
  simp only [Outcome.bind_eq_ok_iff, Outcome.guard_eq_ok_iff] at h
  obtain ⟨_, hpart, hfresh, h⟩ := h
  split at h
  · cases h
  · obtain ⟨hcost, h⟩ := Outcome.unless_eq_ok_iff.mp h
    cases h
    refine ⟨?_, fun k hk heq => hfresh ?_, hcost, rfl, rfl⟩
    · unfold Name.checkPart at hpart
      split at hpart
      · assumption
      · cases hpart
    · rw [find?, Option.isSome_map, List.findIdx?_isSome, List.any_eq_true]
      exact ⟨k, hk, by simpa using heq⟩

theorem mem_of_merge {a b forest : Forest} (h : v.merge a b = .ok forest)
    (hid : id ∈ Node.forestIds forest) : id ∈ Node.forestIds a ∨ id ∈ Node.forestIds b := by
  obtain ⟨_, -, h⟩ := Outcome.ok_of_bind h
  cases h
  have hid := Node.forestIds_mono (fun _ => Keyed.mem_of_mem_distinct) hid
  rwa [Node.forestIds_append, List.mem_append] at hid

theorem mem_of_reduce {parent : SemanticId} {children forest : Forest}
    (h : v.reduce parent children = .ok forest) (hid : id ∈ Node.forestIds forest) :
    id = parent ∨ id ∈ Node.forestIds children := by
  unfold reduce at h
  simp only [Outcome.bind_eq_ok_iff, Outcome.guard_eq_ok_iff] at h
  obtain ⟨_, -, -, _, -, -, h⟩ := h
  cases h
  simpa [Node.forestIds, Node.ids] using hid

theorem mem_of_applyChain {chain : Chain} {children forest : Forest}
    (h : v.applyChain chain children = .ok forest) (hid : id ∈ Node.forestIds forest) :
    id ∈ chain ∨ id ∈ Node.forestIds children := by
  induction chain generalizing forest with
  | nil =>
    cases h
    exact Or.inr hid
  | cons parent chain ih =>
    obtain ⟨inner, hinner, h⟩ := Outcome.ok_of_bind h
    rcases mem_of_reduce h hid with rfl | hid
    · exact Or.inl (by simp)
    · exact (ih hinner hid).imp_left (List.mem_cons_of_mem _)

theorem eq_of_defer {chain deferred : Chain} (h : v.defer chain = .ok deferred) :
    deferred = chain := by
  unfold defer at h
  simp only [Outcome.guard_eq_ok_iff, Outcome.bind_eq_ok_iff] at h
  obtain ⟨-, _, -, _, -, h⟩ := h
  exact (Except.ok.inj h).symm

/-! ### Where nothing forbids to be named twice -/

/-- The definition of the semantic is registered. -/
def Registered (v : Vocabulary) (id : SemanticId) : Prop := id.index < v.size

instance (v : Vocabulary) (id : SemanticId) : Decidable (v.Registered id) :=
  inferInstanceAs (Decidable (id.index < v.size))

/-- No definition forbids its semantic to head two siblings. -/
def Repeatable (v : Vocabulary) : Prop :=
  ∀ definition ∈ v.definitions, definition.forbidsMultiple = false

theorem registered_of_get? {definition : Semantic} (h : v.get? id = some definition) :
    v.Registered id := (List.getElem?_eq_some_iff.mp h).1

theorem Registered.exists_get? (h : v.Registered id) : ∃ definition, v.get? id = some definition :=
  ⟨_, List.getElem?_eq_getElem h⟩

theorem Registered.exists_definition (h : v.Registered id) :
    ∃ definition ∈ v.definitions, v.definition id = .ok definition := by
  refine ⟨v.definitions.get ⟨id.index, h⟩, List.getElem_mem h, ?_⟩
  rw [definition, get?, List.getElem?_eq_getElem h]
  rfl

theorem Repeatable.checkSoleHeads (hv : v.Repeatable) {nodes : List Node}
    (h : ∀ n ∈ nodes, v.Registered n.semantic) (seen : List SemanticId) :
    v.checkSoleHeads seen nodes = .ok () := by
  induction nodes with
  | nil => rfl
  | cons n nodes ih =>
    obtain ⟨definition, hmem, hdefinition⟩ := (h n List.mem_cons_self).exists_definition
    have hrest := ih fun m hm => h m (List.mem_cons_of_mem _ hm)
    rw [Vocabulary.checkSoleHeads, hdefinition]
    change (if definition.forbidsMultiple = true then _ else v.checkSoleHeads seen nodes) = _
    rw [if_neg (by simp [hv definition hmem]), hrest]

theorem Repeatable.exists_merge (hv : v.Repeatable) {a b : Forest}
    (ha : ∀ id ∈ Node.forestIds a, v.Registered id)
    (hb : ∀ id ∈ Node.forestIds b, v.Registered id) : ∃ forest, v.merge a b = .ok forest := by
  have hheads : ∀ n ∈ Keyed.distinct v.renderNode (a ++ b), v.Registered n.semantic := by
    intro n hn
    rcases List.mem_append.mp (Keyed.mem_of_mem_distinct hn) with hn | hn
    · exact ha _ (Node.mem_forestIds_iff.mpr ⟨n, hn, n.semantic_mem_ids⟩)
    · exact hb _ (Node.mem_forestIds_iff.mpr ⟨n, hn, n.semantic_mem_ids⟩)
  exact ⟨_, Outcome.bind_eq_ok_iff.mpr ⟨(), hv.checkSoleHeads hheads [], rfl⟩⟩

end Vocabulary

end QueryGrammar
