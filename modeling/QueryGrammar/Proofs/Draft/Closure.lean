import QueryGrammar.Proofs.Draft.Lookup
/-!
Following references reaches exactly the symbols that a path of rules leads to. A round that finds
only symbols without successors is followed by an empty one, so the rounds are bounded by the number
of symbols that have rules.
-/
namespace QueryGrammar.Draft

/-- A path of rules that satisfy `use` leads from one of the roots to the symbol. -/
inductive Reaches (d : Draft) (use : Rule → Bool) (roots : List SymbolId) : SymbolId → Prop where
  | root {id : SymbolId} (mem : id ∈ roots) : Reaches d use roots id
  | step {id part : SymbolId} {r : Rule} (path : Reaches d use roots id) (rule : r ∈ d.rules id)
      (used : use r = true) (mem : part ∈ r.expansion.parts) : Reaches d use roots part

section Search

variable {next : SymbolId → List SymbolId}

/-- What a round takes up. -/
def unseen (frontier seen : List SymbolId) : List SymbolId :=
  (frontier.filter fun id => !seen.contains id).eraseDups

theorem mem_unseen_iff {frontier seen : List SymbolId} {id : SymbolId} :
    id ∈ unseen frontier seen ↔ id ∈ frontier ∧ id ∉ seen := by
  simp [unseen, List.mem_eraseDups]

theorem closure_succ (rounds : Nat) (frontier seen : List SymbolId) :
    closure next (rounds + 1) frontier seen =
      if unseen frontier seen = [] then seen
      else closure next rounds ((unseen frontier seen).flatMap next)
        (seen ++ unseen frontier seen) := by
  simp [closure, unseen]

/-- What holds of the frontier and passes to successors holds of all that is found. -/
theorem closure_sound {P : SymbolId → Prop} (step : ∀ x, P x → ∀ y ∈ next x, P y) (rounds : Nat) :
    ∀ {frontier seen : List SymbolId}, (∀ x ∈ frontier, P x) → (∀ x ∈ seen, P x) →
      ∀ x ∈ closure next rounds frontier seen, P x := by
  induction rounds with
  | zero => exact fun _ hseen => hseen
  | succ rounds ih =>
    intro frontier seen hfrontier hseen
    have hfresh : ∀ x ∈ unseen frontier seen, P x := fun x hx =>
      hfrontier x (mem_unseen_iff.mp hx).1
    rw [closure_succ]
    split
    · exact hseen
    · refine ih (fun y hy => ?_) (fun x hx => ?_)
      · obtain ⟨x, hx, hy⟩ := List.mem_flatMap.mp hy
        exact step x (hfresh x hx) y hy
      · exact (List.mem_append.mp hx).elim (hseen x) (hfresh x)

/-- The symbols of a list that have not been seen. -/
def remaining (inner seen : List SymbolId) : Nat :=
  (inner.filter fun id => !seen.contains id).length

theorem remaining_append_lt {inner seen fresh : List SymbolId} {x : SymbolId} (hx : x ∈ inner)
    (hseen : x ∉ seen) (hfresh : x ∈ fresh) :
    remaining inner (seen ++ fresh) < remaining inner seen := by
  have hsplit : (inner.filter fun id => !(seen ++ fresh).contains id) =
      (inner.filter fun id => !seen.contains id).filter fun id => !fresh.contains id := by
    simp [List.filter_filter, List.contains_eq_mem, Bool.and_comm]
  unfold remaining
  rw [hsplit, List.length_filter_lt_length_iff_exists]
  exact ⟨x, by simp [hx, hseen], by simp [hfresh]⟩

/-- With enough rounds nothing is left to be found. `inner` lists the symbols that have
successors. -/
theorem closure_complete {inner : List SymbolId} (hinner : ∀ x, next x ≠ [] → x ∈ inner)
    (rounds : Nat) : ∀ {frontier seen : List SymbolId},
      (∀ x ∈ seen, ∀ y ∈ next x, y ∈ seen ∨ y ∈ frontier) →
      (remaining inner seen + 2 ≤ rounds ∨ frontier = [] ∧ 1 ≤ rounds) →
      (∀ x, x ∈ seen ∨ x ∈ frontier → x ∈ closure next rounds frontier seen) ∧
      ∀ x ∈ closure next rounds frontier seen, ∀ y ∈ next x,
        y ∈ closure next rounds frontier seen := by
  induction rounds with
  | zero => intro _ _ _ h; omega
  | succ rounds ih =>
    intro frontier seen hclosed hrounds
    rw [closure_succ]
    have hcover : ∀ x ∈ frontier, x ∈ seen ∨ x ∈ unseen frontier seen := fun x hx =>
      (em (x ∈ seen)).imp_right fun h => mem_unseen_iff.mpr ⟨hx, h⟩
    split
    next hempty =>
      have hall : ∀ x, x ∈ seen ∨ x ∈ frontier → x ∈ seen := by
        rintro x (hx | hx)
        · exact hx
        · exact (hcover x hx).resolve_right (by simp [hempty])
      exact ⟨hall, fun x hx y hy => hall y (hclosed x hx y hy)⟩
    next hne =>
      have hrest : remaining inner (seen ++ unseen frontier seen) + 2 ≤ rounds ∨
          (unseen frontier seen).flatMap next = [] ∧ 1 ≤ rounds := by
        by_cases hsucc : ∃ x ∈ unseen frontier seen, next x ≠ []
        · obtain ⟨x, hx, hn⟩ := hsucc
          have hlt := remaining_append_lt (hinner x hn) (mem_unseen_iff.mp hx).2 hx
          rcases hrounds with h | ⟨rfl, -⟩
          · exact Or.inl (by omega)
          · simp [mem_unseen_iff] at hx
        · have hnil : ∀ x ∈ unseen frontier seen, next x = [] := fun x hx => by
            by_contra h
            exact hsucc ⟨x, hx, h⟩
          refine Or.inr ⟨List.flatMap_eq_nil_iff.mpr hnil, ?_⟩
          rcases hrounds with h | ⟨rfl, -⟩
          · omega
          · exact absurd (by simp [unseen]) hne
      have hnext : ∀ x ∈ seen ++ unseen frontier seen, ∀ y ∈ next x,
          y ∈ seen ++ unseen frontier seen ∨ y ∈ (unseen frontier seen).flatMap next := by
        intro x hx y hy
        rcases List.mem_append.mp hx with hx | hx
        · rcases hclosed x hx y hy with h | h
          · exact Or.inl (List.mem_append_left _ h)
          · exact Or.inl (List.mem_append.mpr (hcover y h))
        · exact Or.inr (List.mem_flatMap.mpr ⟨x, hx, hy⟩)
      obtain ⟨hfound, hstep⟩ := ih hnext hrest
      refine ⟨fun x hx => hfound x (Or.inl (List.mem_append.mpr ?_)), hstep⟩
      exact hx.elim Or.inl (hcover x)

end Search

theorem length_liveSymbols_le (d : Draft) : d.liveSymbols.length ≤ d.symbols.length := by
  unfold liveSymbols
  exact Nat.le_trans (List.length_filterMap_le _ _) (by simp)

theorem mem_reachedFrom_iff {d : Draft} {use : Rule → Bool} {roots : List SymbolId}
    {id : SymbolId} : id ∈ d.reachedFrom use roots ↔ d.Reaches use roots id := by
  let next := fun id => ((d.rules id).filter use).flatMap (·.expansion.parts)
  have mem_next : ∀ {x y : SymbolId}, y ∈ next x ↔
      ∃ r ∈ d.rules x, use r = true ∧ y ∈ r.expansion.parts := by
    intro x y
    simp [next, and_assoc]
  constructor
  · refine closure_sound (P := d.Reaches use roots) (fun x hx y hy => ?_) _
      (fun x hx => .root hx) (by simp) id
    obtain ⟨r, hr, hu, hp⟩ := mem_next.mp hy
    exact .step hx hr hu hp
  · have hinner : ∀ x, next x ≠ [] → x ∈ d.liveSymbols := by
      intro x hx
      obtain ⟨y, hy⟩ := List.exists_mem_of_ne_nil _ hx
      obtain ⟨r, hr, -⟩ := mem_next.mp hy
      exact live_of_mem_rules hr
    have hrounds : remaining d.liveSymbols [] + 2 ≤ d.symbols.length + roots.length + 1 ∨
        roots = [] ∧ 1 ≤ d.symbols.length + roots.length + 1 := by
      have := d.length_liveSymbols_le
      cases roots with
      | nil => exact Or.inr ⟨rfl, by omega⟩
      | cons => exact Or.inl (by simp [remaining]; omega)
    obtain ⟨hroots, hstep⟩ := @closure_complete next _ hinner _ roots [] (by simp) hrounds
    intro h
    induction h with
    | root hx => exact hroots _ (Or.inr hx)
    | step _ hr hu hp ih => exact hstep _ ih _ (mem_next.mpr ⟨_, hr, hu, hp⟩)

end QueryGrammar.Draft
