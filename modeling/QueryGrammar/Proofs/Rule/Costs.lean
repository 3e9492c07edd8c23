import QueryGrammar.Proofs.Semantic.Cost
import QueryGrammar.Rule.Basic
/-!
The costs in a rule. Whether a symbol has a rule already is found by comparing, which takes the two
zeros for equal; where no cost has a minus sign it finds the same rule only.
-/
namespace QueryGrammar

def Expansion.costs : Expansion → List Float
  | .binary _ _ cost _ => cost.toList
  | _ => []

def Edit.cost : Edit → Float
  | .insertion i => i.cost
  | .transposition cost => cost

/-- All costs that stand in a rule. -/
def Rule.costs (r : Rule) : List Float :=
  r.expansion.costs ++ r.insertionCost.toList ++ (r.edit.map Edit.cost).toList

/-- No cost in the rule has a minus sign. -/
def Rule.Unsigned (r : Rule) : Prop := ∀ c ∈ r.costs, Cost.Unsigned c

theorem Cost.eq_of_beq_option {x y : Option Float} (hx : ∀ c ∈ x, Unsigned c)
    (hy : ∀ c ∈ y, Unsigned c) (h : (x == y) = true) : x = y := by
  cases x with
  | none => cases y with
    | none => rfl
    | some b => simp at h
  | some a => cases y with
    | none => simp at h
    | some b => rw [eq_of_beq (hx a rfl) (hy b rfl) (by simpa using h)]

theorem Expansion.eq_of_beq {x y : Expansion} (hx : ∀ c ∈ x.costs, Cost.Unsigned c)
    (hy : ∀ c ∈ y.costs, Cost.Unsigned c) (h : (x == y) = true) : x = y := by
  cases x <;> cases y <;> simp [BEq.beq, instBEqExpansion.beq] at h
  case unary.unary => rw [h.1, h.2]
  case binary.binary =>
    obtain ⟨hfirst, hsecond, hcost, hexcluded⟩ := h
    have hcost := Cost.eq_of_beq_option (by simpa [costs] using hx) (by simpa [costs] using hy) hcost
    rw [hfirst, hsecond, hcost, hexcluded]
  case terminal.terminal => rw [h.1, h.2]
  case sequence.sequence first second text first' second' text' =>
    have hsecond : second = second' := beq_iff_eq.mp h.2.1
    rw [h.1, hsecond, h.2.2]
  case placeholder.placeholder => rw [h]

theorem Insertion.eq_of_beq {i j : Insertion} (hi : Cost.Unsigned i.cost)
    (hj : Cost.Unsigned j.cost) (h : (i == j) = true) : i = j := by
  have hparts : (i.cost == j.cost && (i.position == j.position && (i.text == j.text &&
      (i.semantic == j.semantic && i.tree == j.tree)))) = true := h
  simp only [Bool.and_eq_true, beq_iff_eq] at hparts
  obtain ⟨hcost, hposition, htext, hsemantic, htree⟩ := hparts
  have hcost := Cost.eq_of_beq hi hj hcost
  cases i
  cases j
  simp_all

theorem Edit.eq_of_beq {x y : Edit} (hx : Cost.Unsigned x.cost) (hy : Cost.Unsigned y.cost)
    (h : (x == y) = true) : x = y := by
  cases x with
  | insertion i => cases y with
    | insertion j =>
      have hij : i = j := Insertion.eq_of_beq hx hy h
      rw [hij]
    | transposition b => simp [BEq.beq, instBEqEdit.beq] at h
  | transposition a => cases y with
    | insertion j => simp [BEq.beq, instBEqEdit.beq] at h
    | transposition b =>
      have hab : a = b := Cost.eq_of_beq hx hy h
      rw [hab]

theorem Rule.eq_of_beq {x y : Rule} (hx : x.Unsigned) (hy : y.Unsigned) (h : (x == y) = true) :
    x = y := by
  have hparts : (x.expansion == y.expansion && (x.semantic == y.semantic &&
      (x.features == y.features && (x.insertionCost == y.insertionCost &&
        x.edit == y.edit)))) = true := h
  simp only [Bool.and_eq_true, beq_iff_eq] at hparts
  obtain ⟨hexpansion, hsemantic, hfeatures, hinsertion, hedit⟩ := hparts
  simp only [Rule.Unsigned, costs, List.mem_append, Option.mem_toList] at hx hy
  have hexpansion := Expansion.eq_of_beq (fun c hc => hx c (Or.inl (Or.inl hc)))
    (fun c hc => hy c (Or.inl (Or.inl hc))) hexpansion
  have hinsertion := Cost.eq_of_beq_option (fun c hc => hx c (Or.inl (Or.inr hc)))
    (fun c hc => hy c (Or.inl (Or.inr hc))) hinsertion
  have hedit : x.edit = y.edit := by
    cases ha : x.edit with
    | none => cases hb : y.edit with
      | none => rfl
      | some b => simp [ha, hb] at hedit
    | some a => cases hb : y.edit with
      | none => simp [ha, hb] at hedit
      | some b =>
        have hab : a = b := by
          refine Edit.eq_of_beq (hx _ (Or.inr ?_)) (hy _ (Or.inr ?_)) ?_
          · rw [ha]
            rfl
          · rw [hb]
            rfl
          · simpa [ha, hb] using hedit
        rw [hab]
  cases x
  cases y
  simp_all

/-- A rule compares equal to itself where its costs do. -/
theorem Rule.beq_self {r : Rule} (h : ∀ c ∈ r.costs, (c == c) = true) : (r == r) = true := by
  simp only [costs, List.mem_append, Option.mem_toList] at h
  have hoption : ∀ x : Option Float, (∀ c ∈ x, (c == c) = true) → (x == x) = true := by
    intro x hx
    cases x with
    | none => rfl
    | some c => simpa using hx c rfl
  have hexpansion : (r.expansion == r.expansion) = true := by
    have hcosts := fun c hc => h c (Or.inl (Or.inl hc))
    cases hx : r.expansion <;> simp [BEq.beq, instBEqExpansion.beq]
    case binary first second cost excluded =>
      apply hoption cost
      intro c hc
      exact hcosts c (by simpa [hx, Expansion.costs] using hc)
    case sequence first second text => exact beq_self_eq_true second
  have hinsertion := hoption r.insertionCost fun c hc => h c (Or.inl (Or.inr hc))
  have hedit : (r.edit == r.edit) = true := by
    cases hx : r.edit with
    | none => rfl
    | some edit =>
      have hcost := h edit.cost (Or.inr (by rw [hx]; rfl))
      cases edit with
      | transposition price => exact hcost
      | insertion i =>
        have hparts : (i.cost == i.cost && (i.position == i.position && (i.text == i.text &&
            (i.semantic == i.semantic && i.tree == i.tree)))) = true := by
          simpa [Edit.cost] using hcost
        exact hparts
  have hparts : (r.expansion == r.expansion && (r.semantic == r.semantic &&
      (r.features == r.features && (r.insertionCost == r.insertionCost &&
        r.edit == r.edit)))) = true := by
    simp only [hexpansion, hinsertion, hedit, beq_self_eq_true, Bool.and_true]
  exact hparts

end QueryGrammar
