import QueryGrammar.Proofs.Text.Words
/-!
What normalizing does to a term, for any text: it keeps the words in their order, each in lower
case, and does nothing the second time. Lower-casing makes no word start with `<` that did not, so
a term is accepted by what its own words start with.
-/
namespace QueryGrammar.Text

/-- A word in lower case. -/
def lowered (w : String) : String :=
  String.ofList (lowerWord w.toList)

/-! ### The first character -/

theorem lowerSpans_avoid_bracket : (lowerSpans.all (CaseSpan.avoids · (0x3C, 0x3C))) = true := by
  decide +kernel

theorem ofNat_ne_bracket {s : CaseSpan} (hs : s ∈ lowerSpans) {n : Nat} (hn : s.holds n = true) :
    Char.ofNat ((n : Int) + s.shift).toNat ≠ '<' := by
  intro h
  have havoid := List.all_eq_true.mp lowerSpans_avoid_bracket s hs
  have hnat := toNat_ofNat ((n : Int) + s.shift).toNat
  rw [h, show ('<' : Char).toNat = 0x3C from rfl] at hnat
  simp only [CaseSpan.avoids, CaseSpan.holds, Bool.or_eq_true, Bool.and_eq_true,
    decide_eq_true_eq] at havoid hn
  split at hnat <;> omega

/-- Only the bracket itself has it for its lower-case form. -/
theorem head_lowerChar_eq_bracket_iff {c : Char} : (lowerChar c).head? = some '<' ↔ c = '<' := by
  constructor
  · intro h
    unfold lowerChar at h
    split at h
    · rw [List.head?_cons, Option.some.injEq] at h
      split at h
      next hupper =>
        have hrange : 65 ≤ c.toNat ∧ c.toNat ≤ 90 := by
          simpa [Char.le_def, UInt32.le_iff_toNat_le] using hupper
        have hnat := toNat_ofNat (c.toNat + 32)
        rw [h, show ('<' : Char).toNat = 0x3C from rfl] at hnat
        split at hnat <;> omega
      next => exact h
    · split at h
      · simp at h
      · split at h
        next s hs =>
          have hholds := List.find?_some (p := fun s : CaseSpan => s.holds c.toNat) hs
          exact absurd (Option.some.inj h) (ofNat_ne_bracket (List.mem_of_find?_eq_some hs) hholds)
        next => exact Option.some.inj h
  · rintro rfl
    decide +kernel

theorem head_lowerWord_eq_bracket_iff {w : List Char} :
    (lowerWord w).head? = some '<' ↔ w.head? = some '<' := by
  cases w with
  | nil => rfl
  | cons c cs =>
    rw [lowerWord, lowerAfter, List.head?_cons]
    by_cases hc : c = 'Σ'
    · subst hc
      simp only [beq_self_eq_true, if_true, List.cons_append, List.head?_cons, Option.some.injEq]
      split <;> decide
    · simp [hc, List.head?_append_of_ne_nil _ (lowerChar_ne_nil c), head_lowerChar_eq_bracket_iff]

end QueryGrammar.Text

namespace QueryGrammar.Name

open Text

theorem lowerWords_eq (text : String) : lowerWords text = (wordsOf text).map lowered := by
  simp [lowerWords, wordsOf, lowered, Function.comp_def]

theorem normalizeTerm_normalizeTerm (text : String) :
    normalizeTerm (normalizeTerm text) = normalizeTerm text :=
  congrArg (String.intercalate " ") (lowerWords_normalizeTerm text)

theorem checkedTerm_eq_ok_iff {text term : String} :
    checkedTerm text = .ok term ↔
      term = normalizeTerm text ∧ ∀ w ∈ wordsOf text, w.toList.head? ≠ some '<' := by
  have hfind : (lowerWords text).find? (fun word => word.toList.head? == some '<') = none ↔
      ∀ w ∈ wordsOf text, w.toList.head? ≠ some '<' := by
    simp [lowerWords_eq, lowered, head_lowerWord_eq_bracket_iff]
  rw [← hfind, checkedTerm]
  split
  next hsome => simp [hsome]
  next hnone => simp [hnone, eq_comm]

/-- A normalized term has the words of the text, each in lower case and one space from the next. It
is its own normal form. The text is accepted exactly when none of its words starts with `<`, the
term is then the normalized one, and it is accepted again as it is. -/
theorem normalizeTerm_exactly (text : String) :
    wordsOf (normalizeTerm text) = (wordsOf text).map lowered ∧
    normalizeTerm text = String.intercalate " " ((wordsOf text).map lowered) ∧
    normalizeTerm (normalizeTerm text) = normalizeTerm text ∧
    (∀ term, checkedTerm text = .ok term ↔
      term = normalizeTerm text ∧ ∀ w ∈ wordsOf text, w.toList.head? ≠ some '<') ∧
    ∀ term, checkedTerm text = .ok term → checkedTerm term = .ok term := by
  refine ⟨?_, ?_, normalizeTerm_normalizeTerm text, fun term => checkedTerm_eq_ok_iff,
    fun term => checkedTerm_of_checkedTerm⟩
  · rw [wordsOf_normalizeTerm, lowerWords_eq]
  · rw [normalizeTerm, lowerWords_eq]

/-- A sigma that ends a word is the final one, and a dotted capital I keeps its dot. -/
theorem normalizeTerm_exactly_sigma :
    checkedTerm "\tΟΔΟΣ  İN " = .ok "οδος i̇n" ∧ checkedTerm "οδος i̇n" = .ok "οδος i̇n" := by
  have h : checkedTerm "\tΟΔΟΣ  İN " = .ok "οδος i̇n" :=
    checkedTerm_eq_ok_iff.mpr ⟨by decide +kernel, by decide +kernel⟩
  exact ⟨h, (normalizeTerm_exactly "\tΟΔΟΣ  İN ").2.2.2.2 _ h⟩

end QueryGrammar.Name
