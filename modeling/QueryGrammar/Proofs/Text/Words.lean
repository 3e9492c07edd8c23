import Mathlib
import QueryGrammar.Name
/-!
Terms are kept in a normal form: their words in lower case, one space apart. Lower-casing makes no
blank, so the words of a normalized term are the words it was put together from. It changes nothing
that is in lower case already, so a term in normal form is its own normal form.
-/
namespace QueryGrammar.Text

/-- A run of characters without a blank. -/
def IsWord (w : List Char) : Prop := w ≠ [] ∧ ∀ c ∈ w, isBlank c = false

theorem words_append {w rest : List Char} (hw : IsWord w) (hrest : rest.head?.all isBlank = true) :
    words (w ++ rest) = w :: words rest := by
  obtain ⟨hne, hblank⟩ := hw
  induction w with
  | nil => exact absurd rfl hne
  | cons c cs ih =>
    have hc : isBlank c = false := hblank c (by simp)
    cases cs with
    | nil => simp [words, hc, hrest]
    | cons d ds =>
      have hd : isBlank d = false := hblank d (by simp)
      have htail := ih (by simp) fun x hx => hblank x (by simp [hx])
      rw [List.cons_append, words, htail]
      simp [hc, hd]

theorem words_of_isWord {w : List Char} (hw : IsWord w) : words w = [w] := by
  simpa [words_nil] using @words_append w [] hw rfl

/-- Words that are joined by single spaces are found again. -/
theorem wordsOf_intercalate {ws : List String} (h : ∀ w ∈ ws, IsWord w.toList) :
    wordsOf (String.intercalate " " ws) = ws := by
  induction ws with
  | nil => rfl
  | cons w ws ih =>
    have hw := h w (by simp)
    cases ws with
    | nil => simp [wordsOf, words_of_isWord hw]
    | cons v vs =>
      have hrest := ih fun x hx => h x (by simp [hx])
      rw [String.intercalate_cons_cons, wordsOf, String.toList_append, String.toList_append,
        List.append_assoc, words_append hw rfl]
      have hspace : words (" ".toList ++ (String.intercalate " " (v :: vs)).toList) =
          words (String.intercalate " " (v :: vs)).toList := words_cons_blank rfl _
      rw [hspace, List.map_cons, String.ofList_toList]
      exact congrArg _ hrest

theorem wordsOf_token {w : String} (h : IsWord w.toList) : wordsOf w = [w] := by
  simp [wordsOf, words_of_isWord h]

theorem isWord_of_mem_wordsOf {text w : String} (h : w ∈ wordsOf text) : IsWord w.toList := by
  obtain ⟨cs, hcs, rfl⟩ := List.mem_map.mp h
  simpa [IsWord] using not_blank_of_mem_words text.toList cs hcs

/-! ### Lower case -/

/-- The spans of the characters with the property White_Space. -/
def blankSpans : List (Nat × Nat) :=
  [(9, 13), (0x20, 0x20), (0x85, 0x85), (0xA0, 0xA0), (0x1680, 0x1680), (0x2000, 0x200A),
    (0x2028, 0x2029), (0x202F, 0x202F), (0x205F, 0x205F), (0x3000, 0x3000)]

theorem isBlank_eq (c : Char) : isBlank c = inSpans blankSpans c := by
  rw [Bool.eq_iff_iff]
  simp only [isBlank, inSpans, blankSpans, List.any_cons, List.any_nil, Bool.or_eq_true,
    Bool.and_eq_true, decide_eq_true_eq, beq_iff_eq, Bool.false_eq_true, or_false]
  omega

/-- Whether the lower-case forms of a span keep clear of another. -/
def CaseSpan.avoids (s : CaseSpan) (b : Nat × Nat) : Bool :=
  (s.last : Int) + s.shift < b.1 || b.2 < (s.first : Int) + s.shift

theorem lowerSpans_avoid_blankSpans :
    (lowerSpans.all fun s => blankSpans.all s.avoids) = true := by
  decide +kernel

theorem toNat_ofNat (n : Nat) : (Char.ofNat n).toNat = if n.isValidChar then n else 0 := by
  unfold Char.ofNat
  split <;> rfl

theorem not_blank_of_avoids {s : CaseSpan} {n : Nat} (h : blankSpans.all s.avoids = true)
    (hn : s.holds n = true) : isBlank (Char.ofNat ((n : Int) + s.shift).toNat) = false := by
  rw [isBlank_eq, inSpans, List.any_eq_false]
  intro b hb
  have havoid := List.all_eq_true.mp h b hb
  have hpositive : b.1 ≠ 0 := by
    have hall : (blankSpans.all fun b => b.1 != 0) = true := by decide
    simpa using List.all_eq_true.mp hall b hb
  simp only [CaseSpan.avoids, CaseSpan.holds, Bool.or_eq_true, Bool.and_eq_true,
    decide_eq_true_eq] at havoid hn
  simp only [Bool.and_eq_true, decide_eq_true_eq, toNat_ofNat]
  split <;> omega

theorem capital_iff {c : Char} :
    (decide ('A' ≤ c) && decide (c ≤ 'Z')) = true ↔ 65 ≤ c.toNat ∧ c.toNat ≤ 90 := by
  simp [Char.le_def, UInt32.le_iff_toNat_le]

/-- What is no character becomes the null character. -/
theorem toNat_ofNat_cases (n : Nat) : (Char.ofNat n).toNat = n ∨ (Char.ofNat n).toNat = 0 := by
  rw [toNat_ofNat]
  split <;> simp

theorem not_blank_of_mem_lowerChar {c d : Char} (hc : isBlank c = false) (hd : d ∈ lowerChar c) :
    isBlank d = false := by
  unfold lowerChar at hd
  split at hd
  · rw [List.mem_singleton] at hd
    split at hd
    next hupper =>
      have hrange := capital_iff.mp hupper
      have hnat := hd ▸ toNat_ofNat_cases (c.toNat + 32)
      simp [isBlank]
      omega
    next => exact hd ▸ hc
  · split at hd
    · have hdot : ∀ x ∈ ['i', Char.ofNat 0x307], isBlank x = false := by simp [isBlank]
      exact hdot d hd
    · split at hd
      next s hs =>
        have hall := List.all_eq_true.mp lowerSpans_avoid_blankSpans s (List.mem_of_find?_eq_some hs)
        have hholds := List.find?_some (p := fun s : CaseSpan => s.holds c.toNat) hs
        exact List.mem_singleton.mp hd ▸ not_blank_of_avoids hall hholds
      next => exact List.mem_singleton.mp hd ▸ hc

theorem lowerChar_ne_nil (c : Char) : lowerChar c ≠ [] := by
  unfold lowerChar
  split
  · simp
  · split
    · simp
    · split <;> simp

/-- Lower-casing makes a word of a word. -/
theorem isWord_lowerWord {w : List Char} (hw : IsWord w) : IsWord (lowerWord w) := by
  have hafter : ∀ (cs before : List Char), (∀ c ∈ cs, isBlank c = false) →
      ∀ d ∈ lowerAfter before cs, isBlank d = false := by
    intro cs
    induction cs with
    | nil => simp [lowerAfter]
    | cons c cs ih =>
      intro before h d hd
      rcases List.mem_append.mp hd with hd | hd
      · split at hd
        · have hsigma : ∀ x ∈ ['ς', 'σ'], isBlank x = false := by simp [isBlank]
          refine hsigma d ?_
          split at hd <;> simp_all
        · exact not_blank_of_mem_lowerChar (h c (by simp)) hd
      · exact ih _ (fun x hx => h x (by simp [hx])) d hd
  refine ⟨?_, hafter w [] hw.2⟩
  cases w with
  | nil => exact absurd rfl hw.1
  | cons c cs =>
    rw [lowerWord, lowerAfter]
    split <;> simp [lowerChar_ne_nil]

/-! ### Lower case twice -/

/-- The spans of the characters that are not their own lower-case form. -/
def changedSpans : List CaseSpan := ⟨0x130, 0x130, 1, 0⟩ :: lowerSpans

/-- A character that is its own lower-case form. -/
def IsLower (c : Char) : Prop := ∀ t ∈ changedSpans, t.holds c.toNat = false

instance (c : Char) : Decidable (IsLower c) :=
  inferInstanceAs (Decidable (∀ t ∈ changedSpans, t.holds c.toNat = false))

theorem IsLower.ne_sigma {c : Char} (h : IsLower c) : c ≠ 'Σ' := by
  rintro rfl
  exact absurd h (by decide +kernel)

theorem lowerChar_of_isLower {c : Char} (h : IsLower c) : lowerChar c = [c] := by
  have hnone : lowerSpans.find? (·.holds c.toNat) = none :=
    List.find?_eq_none.mpr fun t ht => by simp [h t (List.mem_cons_of_mem _ ht)]
  have hdotted := h ⟨0x130, 0x130, 1, 0⟩ List.mem_cons_self
  have hcapital := h ⟨0x41, 0x5A, 1, 32⟩ (.tail _ (.head _))
  have hupper : ¬ ('A' ≤ c ∧ c ≤ 'Z') := by
    simp [CaseSpan.holds, Nat.mod_one] at hcapital
    simpa [Char.le_def, UInt32.le_iff_toNat_le] using hcapital
  simp only [CaseSpan.holds, Nat.mod_one, beq_self_eq_true, Bool.and_true] at hdotted
  unfold lowerChar
  rw [hnone]
  split
  · simp [hupper]
  · split
    next heq => simp [beq_iff_eq.mp heq] at hdotted
    next => rfl

/-- The number of the lower-case form of the first character of a span. -/
def CaseSpan.low (s : CaseSpan) : Nat := ((s.first : Int) + s.shift).toNat

/-- Whether no lower-case form of one span is held by the other: they are apart, or the other holds
every second character and the forms fall between. -/
def CaseSpan.clears (s t : CaseSpan) : Bool :=
  Nat.blt (s.low + s.last - s.first) t.first || Nat.blt t.last s.low ||
    ((s.stride == 2 || s.first == s.last) && t.stride == 2 && (s.low + t.first) % 2 == 1)

theorem lowerSpans_positive : (lowerSpans.all fun s => Nat.blt 0 s.low) = true := by
  decide +kernel

theorem lowerSpans_clear : (lowerSpans.all fun s => changedSpans.all s.clears) = true := by
  decide +kernel

theorem CaseSpan.not_holds_of_clears {s t : CaseSpan} (h : s.clears t = true)
    (hlow : 0 < s.low) {n m : Nat} (hn : s.holds n = true) (hm : (m : Int) = n + s.shift) :
    t.holds m = false := by
  simp only [CaseSpan.clears, CaseSpan.low, CaseSpan.holds, Bool.or_eq_true, Bool.and_eq_true,
    beq_iff_eq, Nat.blt_eq, decide_eq_true_eq, Bool.eq_false_iff, ne_eq, not_and] at h hlow hn ⊢
  intro hrange hrest
  rcases h with (h | h) | ⟨⟨hs, ht⟩, hparity⟩
  · omega
  · omega
  · rw [ht] at hrest
    rcases hs with hs | hs
    · rw [hs] at hn
      omega
    · omega

theorem isLower_of_ascii {c : Char} (hascii : c.toNat < 0x80)
    (hupper : ¬ (65 ≤ c.toNat ∧ c.toNat ≤ 90)) : IsLower c := by
  have hspans : (changedSpans.all fun t =>
      (t.first == 0x41 && t.last == 0x5A) || Nat.ble 0x80 t.first) = true := by decide +kernel
  intro t ht
  have h := List.all_eq_true.mp hspans t ht
  simp only [Bool.or_eq_true, Bool.and_eq_true, beq_iff_eq, Nat.ble_eq] at h
  simp only [CaseSpan.holds, Bool.and_eq_false_iff, decide_eq_false_iff_not]
  omega

theorem isLower_ofNat {s : CaseSpan} (hs : s ∈ lowerSpans) {n : Nat} (hn : s.holds n = true) :
    IsLower (Char.ofNat ((n : Int) + s.shift).toNat) := by
  have hclear := List.all_eq_true.mp lowerSpans_clear s hs
  have hlow := Nat.blt_eq.mp (List.all_eq_true.mp lowerSpans_positive s hs)
  have hnat := toNat_ofNat_cases ((n : Int) + s.shift).toNat
  by_cases hpos : ((Char.ofNat ((n : Int) + s.shift).toNat).toNat : Int) = n + s.shift
  · intro t ht
    exact CaseSpan.not_holds_of_clears (List.all_eq_true.mp hclear t ht) hlow hn hpos
  · exact isLower_of_ascii (by omega) (by omega)

theorem isLower_of_mem_lowerChar {c d : Char} (hd : d ∈ lowerChar c) : IsLower d := by
  unfold lowerChar at hd
  split at hd
  next hascii =>
    rw [List.mem_singleton] at hd
    split at hd
    next hupper =>
      have hrange := capital_iff.mp hupper
      have hnat := hd ▸ toNat_ofNat_cases (c.toNat + 32)
      exact isLower_of_ascii (by omega) (by omega)
    next hupper =>
      exact hd ▸ isLower_of_ascii hascii (mt capital_iff.mpr hupper)
  next hascii =>
    split at hd
    · rcases List.mem_pair.mp hd with rfl | rfl
      · decide +kernel
      · decide +kernel
    next hdotted =>
      split at hd
      next s hs =>
        have hholds := List.find?_some (p := fun s : CaseSpan => s.holds c.toNat) hs
        exact List.mem_singleton.mp hd ▸ isLower_ofNat (List.mem_of_find?_eq_some hs) hholds
      next hnone =>
        rw [List.mem_singleton.mp hd]
        refine List.forall_mem_cons.mpr ⟨?_, ?_⟩
        · simp only [beq_iff_eq] at hdotted
          simp only [CaseSpan.holds, Bool.and_eq_false_iff, decide_eq_false_iff_not]
          omega
        · simpa using List.find?_eq_none.mp hnone

theorem isLower_of_mem_lowerWord {w : List Char} {d : Char} (hd : d ∈ lowerWord w) : IsLower d := by
  have hsigma : ∀ x ∈ ['ς', 'σ'], IsLower x := by
    intro x hx
    rcases List.mem_pair.mp hx with rfl | rfl
    · decide +kernel
    · decide +kernel
  suffices ∀ (cs before : List Char), d ∈ lowerAfter before cs → IsLower d from this w [] hd
  intro cs
  induction cs with
  | nil => simp [lowerAfter]
  | cons c cs ih =>
    intro before hd
    rcases List.mem_append.mp hd with hd | hd
    · split at hd
      · refine hsigma d ?_
        split at hd <;> simp_all
      · exact isLower_of_mem_lowerChar hd
    · exact ih _ hd

/-- A word in lower case stays as it is. -/
theorem lowerWord_of_isLower {w : List Char} (h : ∀ c ∈ w, IsLower c) : lowerWord w = w := by
  suffices ∀ (cs before : List Char), (∀ c ∈ cs, IsLower c) → lowerAfter before cs = cs from
    this w [] h
  intro cs
  induction cs with
  | nil => exact fun _ _ => rfl
  | cons c cs ih =>
    intro before h
    have hc := h c List.mem_cons_self
    rw [lowerAfter, ih _ fun d hd => h d (List.mem_cons_of_mem _ hd), lowerChar_of_isLower hc]
    simp [hc.ne_sigma]

theorem lowerWord_lowerWord (w : List Char) : lowerWord (lowerWord w) = lowerWord w :=
  lowerWord_of_isLower fun _ => isLower_of_mem_lowerWord

end QueryGrammar.Text

namespace QueryGrammar.Name

open Text

/-- A term in normal form without a reserved word. -/
structure IsTerm (term : String) : Prop where
  joined : String.intercalate " " (wordsOf term) = term
  unreserved : ∀ w ∈ wordsOf term, w.toList.head? ≠ some '<'

theorem isWord_of_mem_lowerWords {text w : String} (h : w ∈ lowerWords text) :
    IsWord w.toList := by
  obtain ⟨cs, hcs, rfl⟩ := List.mem_map.mp h
  simpa using isWord_lowerWord (not_blank_of_mem_words text.toList cs hcs)

@[simp] theorem wordsOf_normalizeTerm (text : String) :
    wordsOf (normalizeTerm text) = lowerWords text :=
  wordsOf_intercalate fun _ => isWord_of_mem_lowerWords

theorem lowerWords_normalizeTerm (text : String) :
    lowerWords (normalizeTerm text) = lowerWords text := by
  have hwords : ∀ t : String,
      lowerWords t = (wordsOf t).map fun w => String.ofList (lowerWord w.toList) := by
    intro t
    simp [lowerWords, wordsOf, Function.comp_def]
  rw [hwords, wordsOf_normalizeTerm, lowerWords, List.map_map]
  simp [Function.comp_def, lowerWord_lowerWord]

theorem isTerm_of_checkedTerm {text term : String} (h : checkedTerm text = .ok term) :
    IsTerm term := by
  unfold checkedTerm at h
  split at h
  next => simp at h
  next hfind =>
    obtain rfl := Except.ok.inj h
    constructor
    · rw [wordsOf_normalizeTerm, normalizeTerm]
    · intro w hw
      rw [wordsOf_normalizeTerm] at hw
      simpa using List.find?_eq_none.mp hfind w hw

/-- A checked term is accepted again as it is. -/
theorem checkedTerm_of_checkedTerm {text term : String} (h : checkedTerm text = .ok term) :
    checkedTerm term = .ok term := by
  unfold checkedTerm at h
  split at h
  next => cases h
  next hfind =>
    obtain rfl := Except.ok.inj h
    rw [checkedTerm, lowerWords_normalizeTerm, hfind, normalizeTerm, lowerWords_normalizeTerm,
      ← normalizeTerm]
theorem IsTerm.eq_of_wordsOf {term token : String} (h : IsTerm term) (hw : wordsOf term = [token]) :
    term = token := by
  rw [← h.joined, hw, String.intercalate_singleton]

end QueryGrammar.Name
