import Mathlib.Data.List.Perm.Subperm
import QueryGrammar.Finish.Trim
import QueryGrammar.Proofs.Draft.Closure
/-!
The search for productive symbols finds exactly those with a finite expansion. A round only appends
live symbols that are new, so one that adds nothing comes within as many rounds as symbols are live.
-/
namespace QueryGrammar.Draft

variable {d : Draft}

theorem usesOnly_iff {known : List SymbolId} {r : Rule} :
    usesOnly known r = true ↔ ∀ part ∈ r.expansion.parts, part ∈ known := by
  simp [usesOnly]

/-- Every symbol with a rule over known symbols is known. -/
def Saturated (d : Draft) (known : List SymbolId) : Prop :=
  ∀ id, (∃ r ∈ d.rules id, usesOnly known r = true) → id ∈ known

theorem mem_of_expands {known : List SymbolId} (h : d.Saturated known) {id : SymbolId}
    (hid : d.Expands id) : id ∈ known :=
  hid.induction fun X r hr hp => h X ⟨r, hr, usesOnly_iff.mpr hp⟩

/-- A symbol is taken up when it is new and has a rule over known symbols. -/
theorem takeProductive_cases (known : List SymbolId) (id : SymbolId) :
    (d.takeProductive known id = known ∧
      ((∃ r ∈ d.rules id, usesOnly known r = true) → id ∈ known)) ∨
    (d.takeProductive known id = known ++ [id] ∧ id ∉ known ∧
      ∃ r ∈ d.rules id, usesOnly known r = true) := by
  unfold takeProductive
  split
  next hid => exact Or.inl ⟨rfl, fun _ => by simpa using hid⟩
  next hid =>
    split
    next hany => exact Or.inr ⟨rfl, by simpa using hid, by simpa using hany⟩
    next hany => exact Or.inl ⟨rfl, fun hr => absurd (by simpa using hr) hany⟩

/-- What the search keeps: its symbols are live, expand and are listed once. -/
structure Found (d : Draft) (known : List SymbolId) : Prop where
  live : known ⊆ d.liveSymbols
  expands : ∀ id ∈ known, d.Expands id
  nodup : known.Nodup

theorem Found.takeProductive {known : List SymbolId} (h : d.Found known) {id : SymbolId}
    (hid : id ∈ d.liveSymbols) : d.Found (d.takeProductive known id) := by
  rcases d.takeProductive_cases known id with ⟨heq, -⟩ | ⟨heq, hnew, r, hr, hu⟩
  · rw [heq]
    exact h
  · have hexp : d.Expands id := Productions.expands_iff.mpr
      ⟨r, hr, fun part hp => h.expands part (usesOnly_iff.mp hu part hp)⟩
    rw [heq]
    constructor
    · exact List.append_subset.mpr ⟨h.live, by simpa using hid⟩
    · intro x hx
      rcases List.mem_append.mp hx with hx | hx
      · exact h.expands x hx
      · exact List.mem_singleton.mp hx ▸ hexp
    · exact List.nodup_append.mpr ⟨h.nodup, by simp, by
        intro x hx y hy
        rintro rfl
        exact hnew (List.mem_singleton.mp hy ▸ hx)⟩

theorem Found.round {ids known : List SymbolId} (h : d.Found known)
    (hids : ids ⊆ d.liveSymbols) : d.Found (ids.foldl d.takeProductive known) := by
  induction ids generalizing known with
  | nil => exact h
  | cons id ids ih =>
    exact ih (h.takeProductive (hids (by simp))) fun x hx => hids (by simp [hx])

theorem length_le_round (ids known : List SymbolId) :
    known.length ≤ (ids.foldl d.takeProductive known).length := by
  induction ids generalizing known with
  | nil => exact Nat.le_refl _
  | cons id ids ih =>
    refine Nat.le_trans ?_ (ih _)
    rcases d.takeProductive_cases known id with ⟨heq, -⟩ | ⟨heq, -⟩ <;> simp [heq]

/-- A round that does not lengthen the list leaves no symbol to take up. -/
theorem round_stable {ids known : List SymbolId}
    (h : (ids.foldl d.takeProductive known).length = known.length) {id : SymbolId}
    (hid : id ∈ ids) (hr : ∃ r ∈ d.rules id, usesOnly known r = true) : id ∈ known := by
  induction ids generalizing known with
  | nil => simp at hid
  | cons x xs ih =>
    rw [List.foldl_cons] at h
    rcases d.takeProductive_cases known x with ⟨heq, hstay⟩ | ⟨heq, -⟩
    · rw [heq] at h
      rcases List.mem_cons.mp hid with rfl | hid
      · exact hstay hr
      · exact ih h hid hr
    · have hle := d.length_le_round xs (known ++ [x])
      rw [heq] at h
      simp only [List.length_append, List.length_singleton] at hle
      omega

theorem productiveRounds_saturated (rounds : Nat) {known : List SymbolId} (h : d.Found known)
    (hrounds : d.liveSymbols.length ≤ known.length + rounds) :
    d.Found (d.productiveRounds rounds known) ∧
      d.Saturated (d.productiveRounds rounds known) := by
  induction rounds generalizing known with
  | zero =>
    refine ⟨h, fun id hr => ?_⟩
    obtain ⟨r, hr, -⟩ := hr
    have hperm := (List.subperm_of_subset h.nodup h.live).perm_of_length_le (by omega)
    exact hperm.mem_iff.mpr (live_of_mem_rules hr)
  | succ rounds ih =>
    simp only [productiveRounds]
    split
    next hsame =>
      refine ⟨h, fun id hr => ?_⟩
      have hr' := hr
      obtain ⟨r, hr', -⟩ := hr'
      exact round_stable hsame (live_of_mem_rules hr') hr
    next hmore =>
      have hle := d.length_le_round d.liveSymbols known
      exact ih (h.round fun _ hx => hx) (by omega)

theorem mem_productive_iff {id : SymbolId} : id ∈ d.productive ↔ d.Expands id := by
  have hempty : d.Found [] := ⟨by simp, by simp, List.nodup_nil⟩
  obtain ⟨hfound, hsat⟩ := productiveRounds_saturated d.liveSymbols.length hempty (by simp)
  exact ⟨hfound.expands id, mem_of_expands hsat⟩

theorem usesOnly_productive_iff {r : Rule} :
    usesOnly d.productive r = true ↔ ∀ part ∈ r.expansion.parts, d.Expands part := by
  simp only [usesOnly_iff, mem_productive_iff]

end QueryGrammar.Draft
