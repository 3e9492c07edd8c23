import QueryGrammar.Proofs.Json.Digits
import QueryGrammar.Proofs.Json.Numeral
/-!
What is written in the pretty form reads back. A value is read together with what follows it, by a
number of steps that its own text bounds; the blanks between the parts are passed over.
Main statement: `Json.ofText?_toPretty`.
-/
namespace QueryGrammar

/-! ### Numbers -/

namespace Numeral

variable {digits rest : List Char}

theorem isDigit_ne {c d : Char} (hc : c.isDigit = true) (hd : d.isDigit = false) : c ≠ d := by
  rintro rfl
  simp [hc] at hd

theorem readDigits_append (hne : digits ≠ []) (hdigits : ∀ c ∈ digits, c.isDigit)
    (hrest : ∀ c ∈ rest.head?, c.isDigit = false) :
    Json.readDigits (digits ++ rest) = some (digits, rest) := by
  have htake : rest.takeWhile Char.isDigit = [] := by
    cases rest with
    | nil => rfl
    | cons c cs => simp [hrest c (by simp)]
  have hdrop : rest.dropWhile Char.isDigit = rest := by
    cases rest with
    | nil => rfl
    | cons c cs => simp [hrest c (by simp)]
  unfold Json.readDigits
  rw [List.takeWhile_append_of_pos hdigits, htake, List.append_nil,
    List.dropWhile_append_of_pos hdigits, hdrop]
  cases digits with
  | nil => exact absurd rfl hne
  | cons c cs => rfl

theorem readFraction_append (hdigits : ∀ c ∈ digits, c.isDigit)
    (hrest : ∀ c ∈ rest.head?, c.isDigit = false ∧ c ≠ '.') :
    Json.readFraction (fractionText digits ++ rest) = some (digits, rest) := by
  cases digits with
  | nil =>
    cases rest with
    | nil => rfl
    | cons c cs =>
      have hc := (hrest c (by simp)).2
      simp only [fractionText, List.isEmpty_nil, if_true, List.nil_append]
      unfold Json.readFraction
      split
      next heq => exact absurd (List.cons.inj heq).1 hc
      next => rfl
  | cons d ds =>
    exact readDigits_append (by simp) hdigits fun c hc => (hrest c hc).1

theorem readExponent_append {exponent : Option Int} (hrest : Ends rest) :
    Json.readExponent (exponentText exponent ++ rest) = some (exponent, rest) := by
  cases exponent with
  | none =>
    cases rest with
    | nil => rfl
    | cons c cs =>
      obtain ⟨-, -, he, hE⟩ := hrest c (by simp)
      simp [exponentText, Json.readExponent, he, hE]
  | some e =>
    have hdigits : Json.readDigits (Nat.toDigits 10 e.natAbs ++ rest) =
        some (Nat.toDigits 10 e.natAbs, rest) :=
      readDigits_append Nat.toDigits_ne_nil (fun _ hc => isDigit_of_mem_toDigits hc)
        fun c hc => (hrest c hc).1
    by_cases he : e < 0
    · simp [exponentText, Json.readExponent, he, hdigits, digitsValue_toDigits, abs_of_neg he]
    · have hvalue : (e.natAbs : Int) = e := by omega
      simp [exponentText, Json.readExponent, he, hdigits, digitsValue_toDigits, hvalue]

/-- A number reads back from its first digit on. -/
theorem readNumeral_append {n : Numeral} (hn : n.InDigits) (hrest : Ends rest) :
    Json.readNumeral n.negative
      (n.whole ++ (fractionText n.fraction ++ (exponentText n.exponent ++ rest))) =
        some (n, rest) := by
  have hends := ends_exponentText (e := n.exponent) hrest
  have hneedless : ¬ (n.whole.head? == some '0' && n.whole.length != 1) = true := by
    simpa using hn.leading
  simp only [Json.readNumeral, readDigits_append hn.ne_nil hn.whole (ends_fractionText hends),
    readFraction_append hn.fraction hends, readExponent_append hrest, Option.bind_eq_bind,
    Option.bind_some, if_neg hneedless]
  rfl

end Numeral

/-! ### Values -/

namespace Json

variable {fuel level : Nat} {rest : List Char}

/-- A character that is passed over between the parts of a text. -/
def isBlank (c : Char) : Bool := c == ' ' || c == '\t' || c == '\n' || c == '\r'

theorem skipBlanks_newLine (level : Nat) (cs : List Char) :
    skipBlanks (newLine level ++ cs) = skipBlanks cs := by
  have hspaces : ∀ n, skipBlanks (List.replicate n ' ' ++ cs) = skipBlanks cs := by
    intro n
    induction n with
    | zero => rfl
    | succ n ih => exact ih
  exact hspaces (2 * level)

theorem skipBlanks_cons {c : Char} {cs : List Char} (hc : isBlank c = false) :
    skipBlanks (c :: cs) = c :: cs := by
  unfold skipBlanks
  rw [List.dropWhile_cons_of_neg]
  simpa [isBlank] using hc

theorem readValue_newLine (cs : List Char) :
    readValue fuel (newLine level ++ cs) = readValue fuel cs := by
  cases fuel with
  | zero => rfl
  | succ fuel => rw [readValue, skipBlanks_newLine, ← readValue]

theorem isBlank_of_isDigit {c : Char} (hc : c.isDigit = true) : isBlank c = false := by
  have hne : ∀ d : Char, d.isDigit = false → c ≠ d := fun d => Numeral.isDigit_ne hc
  simp [isBlank, hne]

theorem head_pretty {j : Json} (h : j.Plain) (level : Nat) :
    ∃ c cs, j.prettyAt level = c :: cs ∧ isBlank c = false ∧ c ≠ ']' := by
  cases h with
  | null => exact ⟨'n', _, rfl, by decide, by decide⟩
  | bool b => cases b <;> exact ⟨_, _, rfl, by decide, by decide⟩
  | number hn =>
    obtain ⟨c, cs, hw, hc⟩ := head_write hn
    refine ⟨c, cs, by rw [prettyAt, hw], ?_, (kindOf_of_number hc).2⟩
    rcases hc with rfl | hc
    · decide
    · exact isBlank_of_isDigit hc
  | text s => exact ⟨'"', _, rfl, by decide, by decide⟩
  | @array items _ => cases items <;> exact ⟨'[', _, rfl, by decide, by decide⟩
  | @record members _ => cases members <;> exact ⟨'\x7b', _, rfl, by decide, by decide⟩

/-- Where a number is due, the marks of the other values are not. -/
theorem readValue_of_isDigit {c : Char} {cs : List Char} (hc : c.isDigit = true) :
    readValue (fuel + 1) (c :: cs) =
      (readNumeral false (c :: cs)).map fun (n, rest) => (.number n, rest) := by
  have hne : ∀ d : Char, d.isDigit = false → c ≠ d := fun d => Numeral.isDigit_ne hc
  rw [readValue, skipBlanks_cons (isBlank_of_isDigit hc)]
  split
  all_goals first
    | rfl
    | next heq => exact absurd (List.cons.inj heq).1 (hne _ (by decide))

theorem readValue_number {n : Numeral} (hn : n.InDigits) (hrest : Numeral.Ends rest) :
    readValue (fuel + 1) (n.write ++ rest) = some (.number n, rest) := by
  have hread := Numeral.readNumeral_append hn hrest
  simp only [Numeral.write_eq, List.append_assoc]
  cases hsign : n.negative with
  | true =>
    rw [hsign] at hread
    have hminus := @skipBlanks_cons '-' (n.whole ++ (Numeral.fractionText n.fraction ++
      (Numeral.exponentText n.exponent ++ rest))) (by decide)
    simp only [if_true, List.cons_append, List.nil_append]
    rw [readValue, hminus]
    simp only [hread]
    rfl
  | false =>
    rw [hsign] at hread
    obtain ⟨c, cs, hw⟩ := List.exists_cons_of_ne_nil hn.ne_nil
    rw [hw, List.cons_append] at hread
    simp only [hw, Bool.false_eq_true, if_false, List.nil_append, List.cons_append]
    rw [readValue_of_isDigit (hn.whole c (by simp [hw])), hread]
    rfl

/-- The value reads back from its pretty form, whatever may follow it. -/
def Returns (j : Json) : Prop :=
  ∀ level fuel rest, Numeral.Ends rest → 2 * (j.prettyAt level).length ≤ fuel →
    readValue fuel (j.prettyAt level ++ rest) = some (j, rest)

theorem ends_prettyItems (level outer : Nat) (xs : List Json) (rest : List Char) :
    Numeral.Ends (prettyItems level xs ++ (newLine outer ++ rest)) := by
  cases xs with
  | nil => exact ends_cons (by decide)
  | cons x xs => exact ends_cons (by decide)

theorem ends_prettyMembers (level outer : Nat) (ms : List (Option String × Json))
    (rest : List Char) : Numeral.Ends (prettyMembers level ms ++ (newLine outer ++ rest)) := by
  cases ms with
  | nil => exact ends_cons (by decide)
  | cons m ms => exact ends_cons (by decide)

theorem readItems_pretty (level outer : Nat) (rest : List Char) {x : Json} {xs : List Json}
    (hx : x.Returns) (hxs : ∀ y ∈ xs, y.Returns)
    (hfuel : 2 * ((x.prettyAt level).length + (prettyItems level xs).length) + 1 ≤ fuel) :
    readItems fuel (newLine level ++ (x.prettyAt level ++ (prettyItems level xs ++
      (newLine outer ++ ']' :: rest)))) = some (x :: xs, rest) := by
  induction xs generalizing x fuel with
  | nil =>
    obtain ⟨fuel, rfl⟩ := Nat.exists_eq_add_of_le' (Nat.le_of_add_left_le hfuel)
    have hvalue := hx level fuel _ (ends_prettyItems level outer [] (']' :: rest)) (by omega)
    have hclose : skipBlanks (newLine outer ++ ']' :: rest) = ']' :: rest :=
      (skipBlanks_newLine _ _).trans (skipBlanks_cons (by decide))
    simp only [readItems, readValue_newLine, hvalue, Option.bind_eq_bind, Option.bind_some]
    simp only [prettyItems, List.nil_append, hclose]
    rfl
  | cons y ys ih =>
    obtain ⟨fuel, rfl⟩ := Nat.exists_eq_add_of_le' (Nat.le_of_add_left_le hfuel)
    have hvalue := hx level fuel _ (ends_prettyItems level outer (y :: ys) (']' :: rest)) (by omega)
    have hitems := @ih fuel y (hxs y List.mem_cons_self)
      (fun z hz => hxs z (List.mem_cons_of_mem _ hz)) (by simp [prettyItems] at hfuel; omega)
    have hcomma : skipBlanks (prettyItems level (y :: ys) ++ (newLine outer ++ ']' :: rest)) =
        ',' :: (newLine level ++ (y.prettyAt level ++ (prettyItems level ys ++
          (newLine outer ++ ']' :: rest)))) := by
      simp only [prettyItems, List.cons_append, List.append_assoc]
      exact skipBlanks_cons (by decide)
    simp only [readItems, readValue_newLine, hvalue, Option.bind_eq_bind, Option.bind_some]
    simp only [hcomma, hitems, Option.bind_some]
    rfl

/-- A name before its value, up to the blank between them. -/
theorem skipBlanks_member (name : String) (level : Nat) (cs : List Char) :
    skipBlanks (newLine level ++ (writeString (some name) ++ ':' :: ' ' :: cs)) =
      '"' :: (name.toList.flatMap escapeChar ++ '"' :: ':' :: ' ' :: cs) := by
  rw [skipBlanks_newLine]
  simp only [writeString, List.cons_append, List.append_assoc, List.nil_append]
  exact skipBlanks_cons (by decide)

theorem readValue_space (cs : List Char) : readValue fuel (' ' :: cs) = readValue fuel cs := by
  cases fuel with
  | zero => rfl
  | succ fuel => rfl

theorem readMembers_pretty (level outer : Nat) (rest : List Char) {m : String × Json}
    {ms : List (String × Json)} (hm : m.2.Returns) (hms : ∀ k ∈ ms, k.2.Returns)
    (hfuel : 2 * ((m.2.prettyAt level).length + (prettyMembers level (named ms)).length) + 1 ≤
      fuel) :
    readMembers fuel (newLine level ++ (writeString (some m.1) ++ ':' :: ' ' ::
      (m.2.prettyAt level ++ (prettyMembers level (named ms) ++
        (newLine outer ++ '\x7d' :: rest))))) = some (named (m :: ms), rest) := by
  induction ms generalizing m fuel with
  | nil =>
    obtain ⟨fuel, rfl⟩ := Nat.exists_eq_add_of_le' (Nat.le_of_add_left_le hfuel)
    have hvalue := hm level fuel _ (ends_prettyMembers level outer [] ('\x7d' :: rest)) (by omega)
    have hclose : skipBlanks (newLine outer ++ '\x7d' :: rest) = '\x7d' :: rest :=
      (skipBlanks_newLine _ _).trans (skipBlanks_cons (by decide))
    simp only [readMembers, skipBlanks_member, readString_escaped, Option.bind_eq_bind,
      Option.bind_some, skipBlanks_cons (c := ':') (by decide), readValue_space, named, List.map_nil,
      hvalue]
    simp only [prettyMembers, List.nil_append, hclose]
    rfl
  | cons k ks ih =>
    obtain ⟨fuel, rfl⟩ := Nat.exists_eq_add_of_le' (Nat.le_of_add_left_le hfuel)
    have hvalue := hm level fuel _
      (ends_prettyMembers level outer (named (k :: ks)) ('\x7d' :: rest)) (by omega)
    have hmembers := @ih fuel k (hms k List.mem_cons_self)
      (fun z hz => hms z (List.mem_cons_of_mem _ hz))
      (by simp [named, prettyMembers] at hfuel ⊢; omega)
    have hcomma : skipBlanks (prettyMembers level (named (k :: ks)) ++
          (newLine outer ++ '\x7d' :: rest)) =
        ',' :: (newLine level ++ (writeString (some k.1) ++ ':' :: ' ' :: (k.2.prettyAt level ++
          (prettyMembers level (named ks) ++ (newLine outer ++ '\x7d' :: rest))))) := by
      simp only [named, List.map_cons, prettyMembers, List.cons_append, List.append_assoc]
      exact skipBlanks_cons (by decide)
    simp only [readMembers, skipBlanks_member, readString_escaped, Option.bind_eq_bind,
      Option.bind_some, skipBlanks_cons (c := ':') (by decide), readValue_space, hvalue]
    simp only [hcomma, hmembers, Option.bind_some]
    rfl

theorem returns_array {xs : List Json} (hxs : ∀ x ∈ xs, x.Plain ∧ x.Returns) :
    (Json.array xs).Returns := by
  intro level fuel rest _ hfuel
  obtain ⟨fuel, rfl⟩ : ∃ n, fuel = n + 1 := by
    refine Nat.exists_eq_succ_of_ne_zero ?_
    rintro rfl
    cases xs <;> simp [prettyAt] at hfuel
  cases xs with
  | nil =>
    simp only [prettyAt, List.cons_append, List.nil_append]
    rw [readValue, skipBlanks_cons (by decide)]
    simp only [skipBlanks_cons (c := ']') (by decide)]
  | cons x xs =>
    obtain ⟨c, cs, hhead, hblank, hne⟩ := head_pretty (hxs x List.mem_cons_self).1 (level + 1)
    have hitems := @readItems_pretty fuel (level + 1) level rest x xs
      (hxs x List.mem_cons_self).2 (fun y hy => (hxs y (List.mem_cons_of_mem _ hy)).2)
      (by simp [prettyAt] at hfuel; omega)
    simp only [prettyAt, List.cons_append, List.append_assoc, List.nil_append]
    rw [readValue, skipBlanks_cons (by decide)]
    simp only [hitems]
    rw [skipBlanks_newLine, hhead, List.cons_append, skipBlanks_cons hblank]
    split
    next heq => exact absurd (List.cons.inj heq).1 hne
    next => rfl

theorem returns_record {ms : List (String × Json)} (hms : ∀ m ∈ ms, m.2.Returns) :
    (Json.record ms).Returns := by
  intro level fuel rest _ hfuel
  obtain ⟨fuel, rfl⟩ : ∃ n, fuel = n + 1 := by
    refine Nat.exists_eq_succ_of_ne_zero ?_
    rintro rfl
    cases ms <;> simp [record, prettyAt] at hfuel
  cases ms with
  | nil =>
    simp only [record, List.map_nil, prettyAt, List.cons_append, List.nil_append]
    rw [readValue, skipBlanks_cons (by decide)]
    simp only [skipBlanks_cons (c := '\x7d') (by decide)]
  | cons m ms =>
    have hmembers := @readMembers_pretty fuel (level + 1) level rest m ms
      (hms m List.mem_cons_self) (fun k hk => hms k (List.mem_cons_of_mem _ hk))
      (by simp [record, named, prettyAt] at hfuel ⊢; omega)
    simp only [named] at hmembers
    simp only [record, List.map_cons, prettyAt, List.cons_append, List.append_assoc,
      List.nil_append] at hmembers ⊢
    rw [readValue, skipBlanks_cons (by decide)]
    simp only [hmembers, skipBlanks_member]
    rfl

theorem Plain.returns {j : Json} (hj : j.Plain) : j.Returns := by
  induction hj with
  | array hxs ih => exact returns_array fun x hx => ⟨hxs x hx, ih x hx⟩
  | record hms ih => exact returns_record ih
  | number hn =>
    intro level fuel rest hrest hfuel
    obtain ⟨c, cs, hw, -⟩ := head_write hn
    cases fuel with
    | zero => simp [prettyAt, hw] at hfuel
    | succ fuel => exact readValue_number hn hrest
  | null =>
    intro level fuel rest _ hfuel
    cases fuel with
    | zero => simp [prettyAt] at hfuel
    | succ fuel => rfl
  | bool b =>
    intro level fuel rest _ hfuel
    cases fuel with
    | zero => cases b <;> simp [prettyAt] at hfuel
    | succ fuel => cases b <;> rfl
  | text s =>
    intro level fuel rest _ hfuel
    cases fuel with
    | zero => simp [Json.text, prettyAt, writeString] at hfuel
    | succ fuel =>
      simp only [Json.text, prettyAt, writeString, List.cons_append, List.append_assoc,
        List.nil_append]
      rw [readValue, skipBlanks_cons (by decide)]
      simp only [readString_escaped]
      rfl

/-- What is written in the pretty form reads back. -/
theorem ofText?_toPretty {j : Json} (hj : j.Plain) : ofText? j.toPretty = some j := by
  have hends : Numeral.Ends [] := by simp [Numeral.Ends]
  have hread := hj.returns 0 (2 * (j.prettyAt 0).length + 2) [] hends (by omega)
  rw [List.append_nil] at hread
  simp only [ofText?, toPretty, String.toList_ofList, hread, Option.bind_eq_bind, Option.bind_some]
  rfl

end Json

end QueryGrammar
