import QueryGrammar.Json.Basic
import QueryGrammar.Proofs.Decimal.Shortest
/-!
A double that is written as a number is settled by it: the digits stand for the shortest decimal,
wherever its point and exponent are put, and the sign is written too.
-/
namespace QueryGrammar

namespace Numeral

theorem digitsValue_eq (start : ℕ) (digits : List Char) :
    digitsValue start digits = Nat.ofDigitChars 10 digits start :=
  Nat.ofDigitChars_eq_foldl.symm

theorem digitsValue_toDigits (n : ℕ) : digitsValue 0 (Nat.toDigits 10 n) = n := by
  rw [digitsValue_eq, Nat.ofDigitChars_ten_toDigits]

theorem digitsValue_zeros (start count : ℕ) :
    digitsValue start (List.replicate count '0') = 10 ^ count * start := by
  rw [digitsValue_eq, Nat.ofDigitChars_replicate_zero]

theorem digitsValue_append (start : ℕ) (digits more : List Char) :
    digitsValue start (digits ++ more) = digitsValue (digitsValue start digits) more := by
  rw [digitsValue_eq, digitsValue_eq, digitsValue_eq, Nat.ofDigitChars_append]

/-- The number that digits around a point stand for. -/
def pointed (whole fraction : List Char) : ℚ :=
  digitsValue 0 (whole ++ fraction) * 10 ^ (-(fraction.length : ℤ))

/-- The number that a numeral stands for without its sign. -/
def magnitude (n : Numeral) : ℚ :=
  pointed n.whole n.fraction * 10 ^ (n.exponent.getD 0)

/-- A zero after the point adds nothing. -/
theorem pointed_zero (whole : List Char) : pointed whole ['0'] = pointed whole [] := by
  have hzero := digitsValue_zeros (digitsValue 0 whole) 1
  rw [List.replicate_one] at hzero
  rw [pointed, pointed, digitsValue_append, hzero, List.append_nil]
  push_cast
  norm_num
  ring

/-- Digits written around a point stand for the scaled number. -/
theorem pointed_positional (s : Decimal.Scaled) :
    pointed s.positional.1 s.positional.2 = s.value := by
  unfold Decimal.Scaled.positional
  dsimp only
  split
  next hle =>
    have hexponent : s.exponent = (s.exponent.toNat : ℕ) := by omega
    rw [pointed, List.append_nil, digitsValue_append, digitsValue_toDigits, digitsValue_zeros,
      Decimal.Scaled.value]
    conv_rhs => rw [hexponent, zpow_natCast]
    rw [List.length_nil, Nat.cast_zero, neg_zero, zpow_zero, mul_one, Nat.cast_mul, Nat.cast_pow,
      Nat.cast_ofNat, mul_comm]
  next hlt =>
    have hexponent : s.exponent = -((-s.exponent).toNat : ℕ) := by omega
    split
    next hshort =>
      have hlength : (List.replicate ((-s.exponent).toNat - (Nat.toDigits 10 s.coefficient).length)
          '0' ++ Nat.toDigits 10 s.coefficient).length = (-s.exponent).toNat := by
        rw [List.length_append, List.length_replicate]
        omega
      have hzero : digitsValue 0 ['0'] = 0 := digitsValue_zeros 0 1
      rw [pointed, hlength, digitsValue_append, hzero, digitsValue_append, digitsValue_zeros,
        Nat.mul_zero, digitsValue_toDigits, ← hexponent, Decimal.Scaled.value]
    next hlong =>
      rw [List.splitAt_eq, pointed, List.take_append_drop, digitsValue_toDigits,
        List.length_drop, Decimal.Scaled.value]
      congr 2
      omega

theorem magnitude_ofFinite (x : Float) :
    (ofFinite x).magnitude = (Decimal.shortest .even x).value := by
  unfold ofFinite
  dsimp only
  split
  · rw [magnitude, ← pointed_positional]
    dsimp only
    split
    next hempty => rw [pointed_zero, List.isEmpty_iff.mp hempty]; simp
    next => simp
  next hscientific =>
    have hdigits : 1 ≤ (Nat.toDigits 10 (Decimal.shortest .even x).coefficient).length :=
      Nat.length_toDigits_pos
    rw [magnitude, pointed, List.take_append_drop, digitsValue_toDigits, List.length_drop,
      Option.getD_some, mul_assoc, ← zpow_add₀ (by norm_num), Decimal.Scaled.value]
    congr 2
    omega

theorem negative_ofFinite (x : Float) : (ofFinite x).negative = Decimal.isNegative x := by
  unfold ofFinite
  dsimp only
  split <;> rfl

/-- No two doubles are written as one number. -/
theorem ofFinite_injective : Function.Injective ofFinite := by
  intro x y h
  apply Decimal.eq_of_magnitudeBits
  · have hvalue : (Decimal.shortest .even x).value = (Decimal.shortest .even y).value := by
      rw [← magnitude_ofFinite, h, magnitude_ofFinite]
    exact Decimal.magnitudeBits_eq_of_value_eq hvalue
  · rw [← negative_ofFinite, h, negative_ofFinite]

end Numeral

/-- Finite doubles are told apart by how they are written. -/
theorem Json.float_inj {x y : Float} (hx : x.isFinite = true) (h : Json.float x = Json.float y) :
    x = y := by
  unfold Json.float at h
  rw [if_pos hx] at h
  split at h
  · exact Numeral.ofFinite_injective (Json.number.inj h)
  · simp at h

end QueryGrammar
