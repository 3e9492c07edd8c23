import Mathlib.Data.List.Basic
import QueryGrammar.Proofs.Decimal.Shortest
import QueryGrammar.Proofs.Json.Compact
/-!
Every number that is written, a count or a cost, is written in digits, and without a needless zero
before them.
-/
namespace QueryGrammar

theorem isDigit_of_mem_toDigits {n : Nat} {c : Char} (h : c ∈ Nat.toDigits 10 n) :
    c.isDigit = true :=
  Nat.isDigit_of_mem_toDigits (by decide) (by decide) h

theorem isDigit_of_mem_replicate {n : Nat} {c : Char} (h : c ∈ List.replicate n '0') :
    c.isDigit = true := by
  rw [List.eq_of_mem_replicate h]
  decide

/-- No number but zero is written with a zero first. -/
theorem head?_toDigits {n : Nat} (hn : 0 < n) : (Nat.toDigits 10 n).head? ≠ some '0' := by
  induction n using Nat.strongRecOn with
  | ind n ih =>
    by_cases hlt : n < 10
    · rw [Nat.toDigits_of_lt_base hlt]
      interval_cases n <;> decide
    · have hhead : (Nat.toDigits 10 n).head? = (Nat.toDigits 10 (n / 10)).head? := by
        rw [Nat.toDigits_of_base_le (by decide) (by omega), List.head?_append_of_ne_nil]
        exact Nat.toDigits_ne_nil
      rw [hhead]
      exact ih (n / 10) (by omega) (by omega)

/-- The digits before the point start with a zero only if there is no other. -/
theorem Decimal.Scaled.leading_positional {s : Decimal.Scaled}
    (hzero : s.coefficient = 0 → s.exponent = 0) (h : s.positional.1.head? = some '0') :
    s.positional.1.length = 1 := by
  have hne : Nat.toDigits 10 s.coefficient ≠ [] := Nat.toDigits_ne_nil
  unfold positional at h ⊢
  dsimp only at h ⊢
  by_cases hcoefficient : s.coefficient = 0
  · rw [hcoefficient, hzero hcoefficient]
    decide
  · have hhead := head?_toDigits (Nat.pos_of_ne_zero hcoefficient)
    split at h
    · rw [List.head?_append_of_ne_nil _ hne] at h
      exact absurd h hhead
    · split at h
      next hneg hshort => simp [hneg, hshort]
      next hlong =>
        rw [List.splitAt_eq, List.head?_take, if_neg (by omega)] at h
        exact absurd h hhead

theorem Decimal.exponent_shortest_of_zero {tie : Decimal.Tie} {x : Float}
    (h : (Decimal.shortest tie x).coefficient = 0) : (Decimal.shortest tie x).exponent = 0 := by
  have hvalue : (Decimal.shortest tie x).value = 0 := by
    rw [Decimal.Scaled.value, h, Nat.cast_zero, zero_mul]
  have hzero := Decimal.beq_zero_iff.mpr (Decimal.value_shortest_eq_zero_iff.mp hvalue)
  rw [Decimal.shortest, if_pos hzero]

/-- The parts of a number without an exponent are digits, the first at least one. -/
theorem Decimal.Scaled.positional_digits (s : Decimal.Scaled) :
    s.positional.1 ≠ [] ∧ (∀ c ∈ s.positional.1, c.isDigit) ∧
      ∀ c ∈ s.positional.2, c.isDigit := by
  have hne : Nat.toDigits 10 s.coefficient ≠ [] := Nat.toDigits_ne_nil
  unfold positional
  dsimp only
  split
  · refine ⟨by simp [hne], fun c hc => ?_, by simp⟩
    rcases List.mem_append.mp hc with hc | hc
    · exact isDigit_of_mem_toDigits hc
    · exact isDigit_of_mem_replicate hc
  · split
    · refine ⟨by simp, by simp, fun c hc => ?_⟩
      rcases List.mem_append.mp hc with hc | hc
      · exact isDigit_of_mem_replicate hc
      · exact isDigit_of_mem_toDigits hc
    next h =>
      rw [List.splitAt_eq]
      refine ⟨?_, fun c hc => isDigit_of_mem_toDigits (List.mem_of_mem_take hc),
        fun c hc => isDigit_of_mem_toDigits (List.mem_of_mem_drop hc)⟩
      rw [Ne, List.take_eq_nil_iff, not_or]
      exact ⟨by omega, hne⟩

namespace Numeral

theorem inDigits_ofNat (n : Nat) : (ofNat n).InDigits where
  ne_nil := Nat.toDigits_ne_nil
  leading h := by
    rcases Nat.eq_zero_or_pos n with rfl | hn
    · rfl
    · exact absurd h (head?_toDigits hn)
  whole _ hc := isDigit_of_mem_toDigits hc
  fraction := by simp [ofNat]

theorem inDigits_ofFinite (x : Float) : (ofFinite x).InDigits := by
  obtain ⟨hne, hwhole, hfraction⟩ := (Decimal.shortest .even x).positional_digits
  unfold ofFinite
  dsimp only
  split
  · refine ⟨hne, Decimal.Scaled.leading_positional Decimal.exponent_shortest_of_zero, hwhole,
      fun c hc => ?_⟩
    dsimp only at hc
    split at hc
    · rw [List.mem_singleton.mp hc]
      decide
    · exact hfraction c hc
  · have hdigits : Nat.toDigits 10 (Decimal.shortest .even x).coefficient ≠ [] :=
      Nat.toDigits_ne_nil
    refine ⟨?_, fun _ => ?_, fun c hc => isDigit_of_mem_toDigits (List.mem_of_mem_take hc),
      fun c hc => isDigit_of_mem_toDigits (List.mem_of_mem_drop hc)⟩
    · rw [Ne, List.take_eq_nil_iff, not_or]
      exact ⟨by decide, hdigits⟩
    · rw [List.length_take, Nat.min_eq_left (List.length_pos_of_ne_nil hdigits)]

end Numeral

namespace Json

theorem plain_nat (n : Nat) : (nat n).Plain := .number (Numeral.inDigits_ofNat n)

theorem plain_float (x : Float) : (float x).Plain := by
  unfold float
  split
  · exact .number (Numeral.inDigits_ofFinite x)
  · exact .null

theorem plain_texts (items : List String) : (texts items).Plain := by
  refine .array fun x hx => ?_
  obtain ⟨s, -, rfl⟩ := List.mem_map.mp hx
  exact .text s

/-! ### Members -/

/-- Every value among the members is plain. -/
def PlainMembers (members : List (String × Json)) : Prop := ∀ m ∈ members, m.2.Plain

variable {ms ks : List (String × Json)} {name key : String}

theorem Plain.ofMembers (h : PlainMembers ms) : (Json.record ms).Plain := .record h

theorem plainMembers_nil : PlainMembers [] := by simp [PlainMembers]

theorem PlainMembers.cons {j : Json} (hj : j.Plain) (h : PlainMembers ms) :
    PlainMembers ((name, j) :: ms) := by
  intro m hm
  rcases List.mem_cons.mp hm with rfl | hm
  · exact hj
  · exact h m hm

theorem PlainMembers.append (hms : PlainMembers ms) (hks : PlainMembers ks) :
    PlainMembers (ms ++ ks) :=
  fun m hm => (List.mem_append.mp hm).elim (hms m) (hks m)

theorem plainMembers_optional {value : Option Json} (h : ∀ j, value = some j → j.Plain) :
    PlainMembers (optionalMember name value) := by
  cases value with
  | none => exact plainMembers_nil
  | some j => exact .cons (h j rfl) plainMembers_nil

theorem plainMembers_list {items : List Json} (h : ∀ j ∈ items, j.Plain) :
    PlainMembers (listMember name items) := by
  unfold listMember
  split
  · exact plainMembers_nil
  · exact .cons (.array h) plainMembers_nil

theorem find?_append (ms ks : List (String × Json)) :
    Keyed.find? key (ms ++ ks) = (Keyed.find? key ms).or (Keyed.find? key ks) := by
  simp only [Keyed.find?, List.find?_append]
  cases List.find? (fun m => decide (m.1 = key)) ms <;> rfl

theorem find?_optionalMember (name key : String) (value : Option Json) :
    Keyed.find? key (optionalMember name value) = if name = key then value else none := by
  cases value with
  | none => simp [optionalMember, Keyed.find?]
  | some j => by_cases h : name = key <;> simp [optionalMember, Keyed.find?, h]

/-- A list member answers only to its own name. -/
theorem find?_listMember_of_ne (h : name ≠ key) (items : List Json) :
    Keyed.find? key (listMember name items) = none := by
  unfold listMember
  split <;> simp [Keyed.find?, h]

theorem record_inj (h : record ms = record ks) : ms = ks := by
  have hinj : Function.Injective fun m : String × Json => (some m.1, m.2) := by
    rintro ⟨name, j⟩ ⟨key, k⟩ h
    simpa using h
  exact List.map_injective_iff.mpr hinj (Json.object.inj h)

theorem texts_inj {xs ys : List String} (h : texts xs = texts ys) : xs = ys := by
  have hinj : Function.Injective text := fun s t h => Option.some.inj (Json.string.inj h)
  exact List.map_injective_iff.mpr hinj (Json.array.inj h)

end Json

end QueryGrammar
