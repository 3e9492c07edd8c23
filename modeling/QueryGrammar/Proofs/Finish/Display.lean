import Mathlib.Logic.Relation
import QueryGrammar.Proofs.Finish.Shown
/-!
The expansion that a symbol is shown by. It comes to an end on any draft, also where sequences lead
back to themselves, and gives what a recursion over the path from the root gives. Where no symbol
leads back to itself the guard never strikes, and what is shown is the text of all leaves in a row.
-/
namespace QueryGrammar.Draft

variable {d : Draft} {path : List SymbolId} {X Y : SymbolId} {text : List Segment}

/-! ### Along a path from the root -/

theorem live_of_firstExpansion {x : Expansion} (h : d.firstExpansion X = some x) :
    X ∈ d.liveSymbols := by
  obtain ⟨r, hr, -⟩ := Option.map_eq_some_iff.mp h
  exact live_of_mem_rules (List.mem_of_mem_head? hr)

/-- What a symbol shows below the symbols of `path`: a sequence that is shown verbatim, what its
parts show by their own first rules, and a symbol that is on the path already, nothing. -/
def spelled (d : Draft) (path : List SymbolId) (X : SymbolId) : List Segment :=
  if _ : X ∈ path then []
  else match _ : d.firstExpansion X with
    | some (.terminal term text) => text.segments [.literal term]
    | some (.sequence first second text) =>
      text.segments ((first :: second.toList).flatMap fun Y => d.spelled (X :: path) Y)
    | _ => []
termination_by remaining d.liveSymbols path
decreasing_by exact remaining_cons_lt (live_of_firstExpansion ‹_›) ‹_›

theorem spelled_of_notMem (hX : X ∉ path) :
    d.spelled path X =
      match d.firstExpansion X with
      | some (.terminal term text) => text.segments [.literal term]
      | some (.sequence first second text) =>
        text.segments ((first :: second.toList).flatMap (d.spelled (X :: path)))
      | _ => [] := by
  rw [spelled, dif_neg hX]
  split <;> simp_all

/-- Any depth that exceeds the number of live symbols off the path is enough. -/
theorem shownText_eq_spelled {depth : Nat} (h : remaining d.liveSymbols path < depth) :
    d.shownText depth path X = d.spelled path X := by
  induction depth generalizing path X with
  | zero => omega
  | succ depth ih =>
    rw [shownText_succ]
    by_cases hX : X ∈ path
    · rw [if_pos (List.contains_iff_mem.mpr hX), spelled, dif_pos hX]
    · rw [if_neg (mt List.contains_iff_mem.mp hX), spelled_of_notMem hX]
      cases hx : d.firstExpansion X with
      | none => rfl
      | some x =>
        have hlt := remaining_cons_lt (live_of_firstExpansion hx) hX
        have hinner : d.shownText depth (X :: path) = d.spelled (X :: path) :=
          funext fun Y => ih (by omega)
        cases x with
        | sequence first second text => simp only [hinner]
        | _ => rfl

/-! ### Without a guard -/

/-- A sequence that `X` is shown by verbatim has the part `Y`. -/
def ShowsPart (d : Draft) (X Y : SymbolId) : Prop :=
  ∃ first second, d.firstExpansion X = some (.sequence first second .verbatim) ∧
    Y ∈ first :: second.toList

/-- Following first rules from a symbol meets a cycle. -/
def MeetsCycle (d : Draft) (X : SymbolId) : Prop :=
  ∃ Y, Relation.ReflTransGen d.ShowsPart X Y ∧ Relation.TransGen d.ShowsPart Y Y

/-- What a symbol shows by first rules alone, whatever has been met on the way: the texts of the
leaves in a row. -/
inductive Unfolds (d : Draft) : SymbolId → List Segment → Prop where
  | terminal {X : SymbolId} {term : String} {text : DisplayText}
      (first : d.firstExpansion X = some (.terminal term text)) :
      Unfolds d X (text.segments [.literal term])
  | fixed {X A : SymbolId} {B : Option SymbolId} {text : DisplayText}
      (first : d.firstExpansion X = some (.sequence A B text)) (shown : text ≠ .verbatim) :
      Unfolds d X (text.segments [])
  | one {X A : SymbolId} {a : List Segment}
      (first : d.firstExpansion X = some (.sequence A none .verbatim)) (part : Unfolds d A a) :
      Unfolds d X a
  | two {X A B : SymbolId} {a b : List Segment}
      (first : d.firstExpansion X = some (.sequence A (some B) .verbatim))
      (left : Unfolds d A a) (right : Unfolds d B b) : Unfolds d X (a ++ b)
  | nothing {X : SymbolId} (terminal : ∀ term text, d.firstExpansion X ≠ some (.terminal term text))
      (sequence : ∀ A B text, d.firstExpansion X ≠ some (.sequence A B text)) : Unfolds d X []

theorem showsPart_iff {A : SymbolId} {B : Option SymbolId}
    (h : d.firstExpansion X = some (.sequence A B .verbatim)) :
    d.ShowsPart X Y ↔ Y ∈ A :: B.toList := by
  constructor
  · rintro ⟨A', B', h', hY⟩
    obtain ⟨rfl, rfl, -⟩ : A = A' ∧ B = B' ∧ True := by simpa [h] using h'
    exact hY
  · exact fun hY => ⟨A, B, h, hY⟩

/-- A cycle that is met is met from a part already. -/
theorem MeetsCycle.part (h : d.MeetsCycle X) : ∃ Y, d.ShowsPart X Y ∧ d.MeetsCycle Y := by
  obtain ⟨Z, hreach, hcycle⟩ := h
  rcases hreach.cases_head with rfl | ⟨Y, hXY, hYZ⟩
  · obtain ⟨Y, hXY, hYX⟩ := Relation.TransGen.head'_iff.mp hcycle
    exact ⟨Y, hXY, X, hYX, hcycle⟩
  · exact ⟨Y, hXY, Z, hYZ, hcycle⟩

theorem Unfolds.not_meetsCycle (h : d.Unfolds X text) : ¬ d.MeetsCycle X := by
  intro hcycle
  induction h with
  | terminal first =>
    obtain ⟨Y, ⟨A, B, hx, -⟩, -⟩ := hcycle.part
    simp [first] at hx
  | fixed first shown =>
    obtain ⟨Y, ⟨A, B, hx, -⟩, -⟩ := hcycle.part
    simp_all
  | one first part ih =>
    obtain ⟨Y, hY, hcycle⟩ := hcycle.part
    obtain rfl := List.mem_singleton.mp ((showsPart_iff first).mp hY)
    exact ih hcycle
  | two first left right ihLeft ihRight =>
    obtain ⟨Y, hY, hcycle⟩ := hcycle.part
    rcases List.mem_pair.mp ((showsPart_iff first).mp hY) with rfl | rfl
    · exact ihLeft hcycle
    · exact ihRight hcycle
  | nothing _ sequence =>
    obtain ⟨Y, ⟨A, B, hx, -⟩, -⟩ := hcycle.part
    exact sequence A B _ hx

/-- Where no cycle is met, the guard does not strike below a path that does not either. -/
theorem unfolds_spelled (hcycle : ¬ d.MeetsCycle X)
    (hpath : ∀ Y ∈ path, ¬ Relation.ReflTransGen d.ShowsPart X Y) :
    d.Unfolds X (d.spelled path X) := by
  induction path, X using spelled.induct d with
  | case1 path X hX => exact absurd .refl (hpath X hX)
  | case2 path X hX term text hx =>
    rw [spelled_of_notMem hX, hx]
    exact .terminal hx
  | case3 path X hX A B text hx ih =>
    have hpart : ∀ Y, d.ShowsPart X Y → d.Unfolds Y (d.spelled (X :: path) Y) := by
      intro Y hstep
      refine ih Y (fun ⟨Z, hZ, h⟩ => hcycle ⟨Z, hZ.head hstep, h⟩) fun Z hZ hYZ => ?_
      rcases List.mem_cons.mp hZ with rfl | hZ
      · exact hcycle ⟨_, .refl, .head' hstep hYZ⟩
      · exact hpath Z hZ (hYZ.head hstep)
    rw [spelled_of_notMem hX, hx]
    cases text with
    | verbatim =>
      have hA := hpart A ((showsPart_iff hx).mpr (by simp))
      cases B with
      | none => simpa [DisplayText.segments] using Unfolds.one hx hA
      | some B =>
        have hB := hpart B ((showsPart_iff hx).mpr (by simp))
        simpa [DisplayText.segments] using Unfolds.two hx hA hB
    | replace text => exact .fixed hx (by simp)
    | inflected forms => exact .fixed hx (by simp)
    | silent => exact .fixed hx (by simp)
  | case4 path X hX hterminal hsequence =>
    rw [spelled_of_notMem hX]
    split
    next hx => exact absurd hx (hterminal _ _)
    next hx => exact absurd hx (hsequence _ _ _)
    next => exact .nothing hterminal hsequence

theorem unfolds_spelled_root (h : ¬ d.MeetsCycle X) : d.Unfolds X (d.spelled [] X) :=
  unfolds_spelled h (by simp)

theorem Unfolds.unique {a b : List Segment} (ha : d.Unfolds X a) (hb : d.Unfolds X b) : a = b := by
  induction ha generalizing b with
  | terminal first => cases hb <;> simp_all
  | fixed first shown =>
    cases hb <;> simp_all
  | one first part ih =>
    cases hb with
    | one first' part' =>
      obtain rfl : _ = _ := by simpa [first] using first'
      exact ih part'
    | _ => simp_all
  | two first left right ihLeft ihRight =>
    cases hb with
    | two first' left' right' =>
      simp only [first, Option.some.injEq, Expansion.sequence.injEq, and_true] at first'
      obtain ⟨rfl, rfl⟩ := first'
      rw [ihLeft left', ihRight right']
    | _ => simp_all
  | nothing terminal sequence => cases hb <;> simp_all

/-! ### What the expansion gives -/

/-- The expansion of a symbol, on any draft and whatever is being expanded already: with more levels
than there are symbols it never runs out of them, it gives back the state it began with, and it
shows what the recursion along the path shows. The unguarded reading exists exactly where no cycle
is met, and is then what is shown wherever the path holds none of the symbols it takes up, each
occurrence of a part in its place. -/
theorem display_exactly (d : Draft) (X : SymbolId) :
    (∀ path depth, d.symbols.length < depth →
      (d.display depth X).run path = (d.spelled path X, path)) ∧
    ((∃ text, d.Unfolds X text) ↔ ¬ d.MeetsCycle X) ∧
    (∀ text path, d.Unfolds X text →
      (∀ Y ∈ path, ¬ Relation.ReflTransGen d.ShowsPart X Y) → d.spelled path X = text) ∧
    ∀ A, d.firstExpansion X = some (.sequence A (some A) .verbatim) → ¬ d.MeetsCycle X →
      d.spelled [] X = d.spelled [] A ++ d.spelled [] A := by
  refine ⟨fun path depth hdepth => ?_, ⟨?_, fun h => ⟨_, unfolds_spelled_root h⟩⟩,
    fun text path h hpath => ?_, fun A hx hcycle => ?_⟩
  · have hlt : remaining d.liveSymbols path < depth :=
      Nat.lt_of_le_of_lt (Nat.le_trans (List.length_filter_le _ _) d.length_liveSymbols_le) hdepth
    rw [run_display, shownText_eq_spelled hlt]
    rfl
  · rintro ⟨text, h⟩
    exact h.not_meetsCycle
  · exact (unfolds_spelled h.not_meetsCycle hpath).unique h
  · have hA : ¬ d.MeetsCycle A := fun ⟨Y, hY, h⟩ =>
      hcycle ⟨Y, hY.head ((showsPart_iff hx).mpr (by simp)), h⟩
    have hpart := unfolds_spelled_root hA
    exact (unfolds_spelled_root hcycle).unique (.two hx hpart hpart)

/-- A word, the word twice, and a sequence that begins with itself. -/
def echoes : Draft where
  symbols :=
    [{ name := startName },
      { name := "[echo]", rules := [{ expansion := .terminal "echo" .verbatim }] },
      { name := "[echoes]", rules := [{ expansion := .sequence ⟨1⟩ (some ⟨1⟩) .verbatim }] },
      { name := "[endless]", rules := [{ expansion := .sequence ⟨3⟩ (some ⟨2⟩) .verbatim }] }]

theorem display_exactly_echoes :
    echoes.symbols.length < 5 ∧
    (echoes.display 5 ⟨3⟩).run [⟨2⟩] = (echoes.spelled [⟨2⟩] ⟨3⟩, [⟨2⟩]) ∧
    echoes.Unfolds ⟨2⟩ [.literal "echo", .literal "echo"] ∧ ¬ echoes.MeetsCycle ⟨2⟩ ∧
    echoes.spelled [] ⟨2⟩ = [.literal "echo", .literal "echo"] ∧
    echoes.firstExpansion ⟨2⟩ = some (.sequence ⟨1⟩ (some ⟨1⟩) .verbatim) ∧
    echoes.spelled [] ⟨2⟩ = echoes.spelled [] ⟨1⟩ ++ echoes.spelled [] ⟨1⟩ := by
  have hfirst : echoes.firstExpansion ⟨1⟩ = some (.terminal "echo" .verbatim) := rfl
  have hecho : echoes.Unfolds ⟨1⟩ [.literal "echo"] := .terminal hfirst
  have hechoes : echoes.Unfolds ⟨2⟩ [.literal "echo", .literal "echo"] := .two rfl hecho hecho
  have hcycle : ¬ echoes.MeetsCycle ⟨2⟩ := (display_exactly echoes ⟨2⟩).2.1.mp ⟨_, hechoes⟩
  exact ⟨by decide, (display_exactly echoes ⟨3⟩).1 [⟨2⟩] 5 (by decide), hechoes, hcycle,
    (display_exactly echoes ⟨2⟩).2.2.1 _ [] hechoes (by simp), rfl,
    (display_exactly echoes ⟨2⟩).2.2.2 ⟨1⟩ rfl hcycle⟩

example : (echoes.display 5 ⟨3⟩).run [⟨2⟩] = ([], [⟨2⟩]) ∧
    (echoes.display 5 ⟨3⟩).run [] = ([.literal "echo", .literal "echo"], []) := ⟨rfl, rfl⟩

end QueryGrammar.Draft
