/-!
White space as the property White_Space has it, and the words that stand between blanks.
-/
namespace QueryGrammar.Text

/-- The characters with the property White_Space. -/
def isBlank (c : Char) : Bool :=
  let n := c.toNat
  (9 ≤ n && n ≤ 13) || n == 0x20 || n == 0x85 || n == 0xA0 || n == 0x1680 ||
    (0x2000 ≤ n && n ≤ 0x200A) || n == 0x2028 || n == 0x2029 || n == 0x202F || n == 0x205F ||
    n == 0x3000

/-- The longest runs without a blank, from left to right. -/
def words : List Char → List (List Char)
  | [] => []
  | c :: cs =>
    if isBlank c then words cs
    else if cs.head?.all isBlank then [c] :: words cs
    else (words cs).modifyHead (c :: ·)

/-- The words of a text. -/
def wordsOf (text : String) : List String :=
  (words text.toList).map String.ofList

theorem words_nil : words [] = [] := rfl

theorem words_cons_blank {c : Char} (h : isBlank c = true) (cs : List Char) :
    words (c :: cs) = words cs := by
  simp [words, h]

/-- A word holds no blank and is not empty. -/
theorem not_blank_of_mem_words (cs : List Char) :
    ∀ w ∈ words cs, w ≠ [] ∧ ∀ c ∈ w, isBlank c = false := by
  induction cs with
  | nil => simp [words]
  | cons c cs ih =>
    by_cases hc : isBlank c = true
    · rw [words_cons_blank hc]
      exact ih
    · simp only [words, hc, Bool.false_eq_true, if_false]
      split
      · intro w hw
        rcases List.mem_cons.mp hw with rfl | hw
        · simp [hc]
        · exact ih w hw
      · intro w hw
        cases hws : words cs with
        | nil => simp [hws] at hw
        | cons v vs =>
          rw [hws, List.modifyHead_cons] at hw
          rcases List.mem_cons.mp hw with rfl | hw
          · have hv := ih v (by simp [hws])
            refine ⟨by simp, fun d hd => ?_⟩
            rcases List.mem_cons.mp hd with rfl | hd
            · simpa using hc
            · exact hv.2 d hd
          · exact ih w (by simp [hws, hw])

end QueryGrammar.Text
