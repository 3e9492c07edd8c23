import Mathlib
import QueryGrammar.Decimal.Shortest
import QueryGrammar.Proofs.Semantic.Cost
/-!
The search for the shortest decimal always succeeds, so what it finds lies in the interval of its
double. The intervals of different doubles share no number, and so the decimal settles the double up
to its sign.
-/
namespace QueryGrammar.Decimal

/-- The number that a scaled coefficient stands for. -/
def Scaled.value (s : Scaled) : ℚ := s.coefficient * 10 ^ s.exponent

theorem zpow_eq_div {b : ℕ} (hb : 0 < b) (e : ℤ) :
    (b : ℚ) ^ e = (b ^ e.toNat : ℕ) / (b ^ (-e).toNat : ℕ) := by
  have hne : (b : ℚ) ≠ 0 := by positivity
  have he : e = e.toNat - (-e).toNat := by omega
  conv_lhs => rw [he]
  rw [zpow_sub₀ hne, zpow_natCast, zpow_natCast, Nat.cast_pow, Nat.cast_pow]

/-- A number has no fewer digits than the power of ten below it. -/
theorem pow_length_toDigits_le {n : ℕ} (hn : 1 ≤ n) :
    10 ^ ((Nat.toDigits 10 n).length - 1) ≤ n := by
  rcases Nat.eq_zero_or_pos ((Nat.toDigits 10 n).length - 1) with hzero | hpos
  · rw [hzero]
    exact hn
  · by_contra hlt
    have hle := (Nat.length_toDigits_le_iff (by decide) hpos).mpr (not_le.mp hlt)
    omega

namespace Interval

variable (i : Interval)

def lowest : ℚ := i.low / i.unit

def middle : ℚ := i.centre / i.unit

def highest : ℚ := i.high / i.unit

/-- The number rounds to the double of the interval. -/
def Contains (v : ℚ) : Prop :=
  if i.closed then i.lowest ≤ v ∧ v ≤ i.highest else i.lowest < v ∧ v < i.highest

/-- The interval surrounds its centre, which is not zero. -/
structure Proper : Prop where
  unit_pos : 0 < i.unit
  centre_pos : 0 < i.centre
  low_lt : i.low < i.centre
  lt_high : i.centre < i.high

variable {i}

theorem Contains.bounds {v : ℚ} (h : i.Contains v) : i.lowest ≤ v ∧ v ≤ i.highest := by
  unfold Contains at h
  split at h
  · exact h
  · exact ⟨h.1.le, h.2.le⟩

theorem contains_of_lt {v : ℚ} (hlow : i.lowest < v) (hhigh : v < i.highest) : i.Contains v := by
  unfold Contains
  split
  · exact ⟨hlow.le, hhigh.le⟩
  · exact ⟨hlow, hhigh⟩

/-- An interval that contains one of its ends is closed. -/
theorem Contains.closed {v : ℚ} (h : i.Contains v) (hend : v = i.lowest ∨ v = i.highest) :
    i.closed = true := by
  unfold Contains at h
  split at h
  · assumption
  · rcases hend with rfl | rfl
    · exact absurd h.1 (lt_irrefl _)
    · exact absurd h.2 (lt_irrefl _)

theorem Proper.unit_cast_pos (hi : i.Proper) : (0 : ℚ) < i.unit := by
  exact_mod_cast hi.unit_pos

theorem Proper.lowest_lt (hi : i.Proper) : i.lowest < i.middle := by
  rw [lowest, middle, div_lt_div_iff_of_pos_right hi.unit_cast_pos, Nat.cast_lt]
  exact hi.low_lt

theorem Proper.lt_highest (hi : i.Proper) : i.middle < i.highest := by
  rw [middle, highest, div_lt_div_iff_of_pos_right hi.unit_cast_pos, Nat.cast_lt]
  exact hi.lt_high

/-! ### Multiples of a power of ten -/

section Multiples

variable (hi : i.Proper)
include hi

theorem holds_iff {scale : ℕ} (hscale : 0 < scale) (n : ℕ) :
    i.holds n scale = true ↔ i.Contains ((n : ℚ) / (i.unit * scale)) := by
  have hpos := hi.unit_cast_pos
  have hscaled : (0 : ℚ) < i.unit * scale := by positivity
  have hleft : ∀ a : ℕ, (a : ℚ) / i.unit = (a * scale : ℕ) / (i.unit * scale) := by
    intro a
    push_cast
    field_simp
  have hle : ∀ a b : ℕ, (a : ℚ) / (i.unit * scale) ≤ b / (i.unit * scale) ↔ a ≤ b := by
    intro a b
    rw [div_le_div_iff_of_pos_right hscaled, Nat.cast_le]
  have hlt : ∀ a b : ℕ, (a : ℚ) / (i.unit * scale) < b / (i.unit * scale) ↔ a < b := by
    intro a b
    rw [div_lt_div_iff_of_pos_right hscaled, Nat.cast_lt]
  unfold holds Contains lowest highest
  rw [hleft, hleft, hle, hle, hlt, hlt]
  split <;> simp

/-- A number of steps over the scale is that multiple of the power of ten. -/
theorem steps_div (exponent : ℤ) (c : ℕ) :
    ((c * (i.unit * Nat.pow 10 exponent.toNat) : ℕ) : ℚ) /
        (i.unit * (Nat.pow 10 (-exponent).toNat : ℕ)) = c * 10 ^ exponent := by
  have hten := zpow_eq_div (b := 10) (by decide) exponent
  have hpos := hi.unit_cast_pos
  push_cast at hten ⊢
  rw [hten]
  simp only [Nat.pow_eq, Nat.cast_pow, Nat.cast_ofNat]
  field_simp

theorem holds_steps_iff (exponent : ℤ) (c : ℕ) :
    i.holds (c * (i.unit * Nat.pow 10 exponent.toNat)) (Nat.pow 10 (-exponent).toNat) = true ↔
      i.Contains (c * 10 ^ exponent) := by
  have hscale : 0 < Nat.pow 10 (-exponent).toNat := Nat.pow_pos (by decide)
  rw [holds_iff hi hscale, steps_div hi]

/-- The centre lies between two neighbouring multiples. -/
theorem middle_between (exponent : ℤ) {below : ℕ} (hbelow : below =
    i.centre * Nat.pow 10 (-exponent).toNat / (i.unit * Nat.pow 10 exponent.toNat)) :
    below * 10 ^ exponent ≤ i.middle ∧ i.middle < (below + 1 : ℕ) * 10 ^ exponent := by
  have hunit := hi.unit_cast_pos
  have hscale : (0 : ℚ) < (Nat.pow 10 (-exponent).toNat : ℕ) := by
    exact_mod_cast Nat.pow_pos (by decide)
  have hscaled : (0 : ℚ) < i.unit * (Nat.pow 10 (-exponent).toNat : ℕ) := by positivity
  have hstep : 0 < i.unit * Nat.pow 10 exponent.toNat :=
    Nat.mul_pos hi.unit_pos (Nat.pow_pos (by decide))
  have hmiddle : i.middle = ((i.centre * Nat.pow 10 (-exponent).toNat : ℕ) : ℚ) /
      (i.unit * (Nat.pow 10 (-exponent).toNat : ℕ)) := by
    rw [middle, Nat.cast_mul]
    field_simp
  rw [← steps_div hi, ← steps_div hi, hmiddle, div_le_div_iff_of_pos_right hscaled,
    div_lt_div_iff_of_pos_right hscaled, Nat.cast_le, Nat.cast_lt, hbelow]
  constructor
  · exact Nat.div_mul_le_self _ _
  · exact Nat.lt_mul_of_div_lt (Nat.lt_succ_self _) hstep

theorem contains_of_nearest? {tie : Tie} {exponent : ℤ} {c : ℕ}
    (h : i.nearest? tie exponent = some c) : i.Contains (c * 10 ^ exponent) := by
  rw [← holds_steps_iff hi]
  unfold nearest? at h
  dsimp only at h
  split at h
  next hbelow _ => exact Option.some.inj h ▸ hbelow
  next _ habove => exact Option.some.inj h ▸ habove
  next hbelow habove =>
    split_ifs at h
    · exact Option.some.inj h ▸ hbelow
    · exact Option.some.inj h ▸ habove
    · exact Option.some.inj h ▸ hbelow
    · exact Option.some.inj h ▸ habove
  next => simp at h

/-- A power of ten has a multiple in every interval that is wider. -/
theorem exists_nearest? (tie : Tie) {exponent : ℤ}
    (hwide : (10 : ℚ) ^ exponent < i.highest - i.lowest) :
    ∃ c, i.nearest? tie exponent = some c := by
  obtain ⟨hle, hlt⟩ := middle_between hi exponent rfl
  unfold nearest?
  dsimp only
  generalize i.centre * Nat.pow 10 (-exponent).toNat / (i.unit * Nat.pow 10 exponent.toNat) =
    below at hle hlt
  -- the two neighbours of the centre are closer together than the ends of the interval
  have hone : i.lowest < below * 10 ^ exponent ∨
      ((below + 1 : ℕ) : ℚ) * 10 ^ exponent < i.highest := by
    by_contra hnone
    push Not at hnone
    have hgap : ((below + 1 : ℕ) : ℚ) * 10 ^ exponent =
        below * 10 ^ exponent + 10 ^ exponent := by
      push_cast
      ring
    linarith
  split
  · exact ⟨_, rfl⟩
  · exact ⟨_, rfl⟩
  · split_ifs
    all_goals exact ⟨_, rfl⟩
  next hno hno' =>
    rcases hone with h | h
    · have hheld := contains_of_lt h (hle.trans_lt hi.lt_highest)
      rw [← holds_steps_iff hi, hno] at hheld
      contradiction
    · have hheld := contains_of_lt (hi.lowest_lt.trans hlt) h
      rw [← holds_steps_iff hi, hno'] at hheld
      contradiction

/-- A search that comes down to a power of ten below the width of the interval ends inside it. -/
theorem contains_search (tie : Tie) {steps : ℕ} {exponent : ℤ}
    (hwide : (10 : ℚ) ^ (exponent - steps) < i.highest - i.lowest) :
    i.Contains (i.search tie (steps + 1) exponent).value := by
  induction steps generalizing exponent with
  | zero =>
    obtain ⟨c, hc⟩ := exists_nearest? hi tie (by simpa using hwide)
    rw [search, hc]
    exact contains_of_nearest? hi hc
  | succ steps ih =>
    rw [search]
    split
    next c hc => exact contains_of_nearest? hi hc
    next =>
      apply ih
      have heq : exponent - 1 - (steps : ℤ) = exponent - (steps + 1 : ℕ) := by
        push_cast
        ring
      rw [heq]
      exact hwide

/-- The first power tried is at most ten times the centre. -/
theorem pow_topExponent_le : (10 : ℚ) ^ (i.topExponent - 1) ≤ i.middle := by
  have hunit := hi.unit_cast_pos
  have hcentre : (0 : ℚ) < i.centre := by exact_mod_cast hi.centre_pos
  unfold topExponent middle
  split
  next hle =>
    have hone : 1 ≤ i.centre / i.unit := (Nat.one_le_div_iff hi.unit_pos).mpr hle
    have hlength : 0 < (Nat.toDigits 10 (i.centre / i.unit)).length := Nat.length_toDigits_pos
    have heq : ((Nat.toDigits 10 (i.centre / i.unit)).length : ℤ) - 1 =
        ((Nat.toDigits 10 (i.centre / i.unit)).length - 1 : ℕ) := by omega
    rw [heq, zpow_natCast, le_div_iff₀ hunit]
    have hmul := (Nat.mul_le_mul_right i.unit (pow_length_toDigits_le hone)).trans
      (Nat.div_mul_le_self _ _)
    exact_mod_cast hmul
  next hlt =>
    have hpow : i.unit / i.centre < 10 ^ (Nat.toDigits 10 (i.unit / i.centre)).length :=
      (Nat.length_toDigits_le_iff (by decide) Nat.length_toDigits_pos).mp le_rfl
    have heq : (1 - ((Nat.toDigits 10 (i.unit / i.centre)).length : ℤ)) - 1 =
        -((Nat.toDigits 10 (i.unit / i.centre)).length : ℕ) := by omega
    rw [heq, zpow_neg, zpow_natCast, inv_eq_one_div,
      div_le_div_iff₀ (by positivity) hunit, one_mul]
    have hmul := (Nat.div_lt_iff_lt_mul hi.centre_pos).mp hpow
    rw [mul_comm] at hmul
    exact_mod_cast hmul.le

end Multiples

/-! ### Intervals of doubles -/

section Binary

variable {mantissa : ℕ} {exponent : ℤ} {wide : Bool}

theorem proper_ofBinary (hm : 0 < mantissa) : (ofBinary mantissa exponent wide).Proper where
  unit_pos := Nat.pow_pos (by decide)
  centre_pos := Nat.mul_pos (by omega) (Nat.pow_pos (by decide))
  low_lt := by
    apply Nat.mul_lt_mul_of_pos_right
    · split <;> omega
    · exact Nat.pow_pos (by decide)
  lt_high := by
    apply Nat.mul_lt_mul_of_pos_right
    · omega
    · exact Nat.pow_pos (by decide)

/-- So many quarters of a step are the number. -/
theorem quarters_div (n : ℕ) (exponent : ℤ) :
    ((n * Nat.pow 2 (exponent - 2).toNat : ℕ) : ℚ) / (Nat.pow 2 (2 - exponent).toNat : ℕ) =
      n * 2 ^ (exponent - 2) := by
  have htwo := zpow_eq_div (b := 2) (by decide) (exponent - 2)
  rw [neg_sub] at htwo
  push_cast at htwo ⊢
  rw [htwo]
  simp only [Nat.pow_eq, Nat.cast_pow, Nat.cast_ofNat]
  ring

theorem lowest_ofBinary : (ofBinary mantissa exponent wide).lowest =
    (4 * mantissa - if wide then 2 else 1 : ℕ) * 2 ^ (exponent - 2) :=
  quarters_div _ exponent

theorem middle_ofBinary : (ofBinary mantissa exponent wide).middle =
    (4 * mantissa : ℕ) * 2 ^ (exponent - 2) :=
  quarters_div _ exponent

theorem highest_ofBinary : (ofBinary mantissa exponent wide).highest =
    (4 * mantissa + 2 : ℕ) * 2 ^ (exponent - 2) :=
  quarters_div _ exponent

/-- The interval of a double is wider than the last power of ten that is tried. -/
theorem wide_ofBinary (hm : 0 < mantissa) (hlt : mantissa < 2 * hiddenBit)
    (hnarrow : wide = false → mantissa = hiddenBit) :
    (10 : ℚ) ^ ((ofBinary mantissa exponent wide).topExponent - (17 : ℕ)) <
      (ofBinary mantissa exponent wide).highest - (ofBinary mantissa exponent wide).lowest := by
  have hproper : (ofBinary mantissa exponent wide).Proper := proper_ofBinary hm
  have htop := pow_topExponent_le hproper
  have hsplit : (ofBinary mantissa exponent wide).topExponent - (17 : ℕ) =
      ((ofBinary mantissa exponent wide).topExponent - 1) + (-16 : ℤ) := by
    push_cast
    ring
  rw [middle_ofBinary] at htop
  rw [hsplit, zpow_add₀ (by norm_num), highest_ofBinary, lowest_ofBinary, ← sub_mul,
    ← Nat.cast_sub (by omega)]
  have hstep : (0 : ℚ) < 2 ^ (exponent - 2) := by positivity
  have hquarters : 4 * mantissa < 10 ^ 16 *
      (4 * mantissa + 2 - (4 * mantissa - if wide then 2 else 1)) := by
    cases wide with
    | true =>
      simp only [hiddenBit] at hlt ⊢
      simp only [if_true]
      omega
    | false => simp [hnarrow rfl, hiddenBit]
  have hcast : ((4 * mantissa : ℕ) : ℚ) < 10 ^ 16 *
      ((4 * mantissa + 2 - (4 * mantissa - if wide then 2 else 1) : ℕ) : ℚ) := by
    exact_mod_cast hquarters
  calc (10 : ℚ) ^ ((ofBinary mantissa exponent wide).topExponent - 1) * 10 ^ (-16 : ℤ)
      ≤ (4 * mantissa : ℕ) * 2 ^ (exponent - 2) * 10 ^ (-16 : ℤ) :=
        mul_le_mul_of_nonneg_right htop (by positivity)
    _ < (10 ^ 16 * ((4 * mantissa + 2 - (4 * mantissa - if wide then 2 else 1) : ℕ) : ℚ)) *
          2 ^ (exponent - 2) * 10 ^ (-16 : ℤ) := by gcongr
    _ = ((4 * mantissa + 2 - (4 * mantissa - if wide then 2 else 1) : ℕ) : ℚ) *
          2 ^ (exponent - 2) := by
        rw [zpow_neg]
        norm_num
        ring

end Binary

/-! ### Neighbouring doubles -/

/-- The mantissa of the double that has these bits besides its sign. -/
def mantissaOf (bits : ℕ) : ℕ :=
  if bits / hiddenBit = 0 then bits else bits % hiddenBit + hiddenBit

def exponentOf (bits : ℕ) : ℤ :=
  if bits / hiddenBit = 0 then -1074 else (bits / hiddenBit : ℕ) - 1075

/-- Whether the double below is as far away as the double above. -/
def isWideAt (bits : ℕ) : Bool :=
  bits % hiddenBit != 0 || decide (bits / hiddenBit ≤ 1)

def ofBits (bits : ℕ) : Interval :=
  ofBinary (mantissaOf bits) (exponentOf bits) (isWideAt bits)

theorem mantissaOf_pos {bits : ℕ} (h : 0 < bits) : 0 < mantissaOf bits := by
  unfold mantissaOf hiddenBit
  split <;> omega

theorem mantissaOf_lt (bits : ℕ) : mantissaOf bits < 2 * hiddenBit := by
  unfold mantissaOf hiddenBit
  split <;> omega

theorem proper_ofBits {bits : ℕ} (h : 0 < bits) : (ofBits bits).Proper :=
  proper_ofBinary (mantissaOf_pos h)

theorem closed_ofBits (bits : ℕ) : (ofBits bits).closed = (bits % 2 == 0) := by
  have hparity : mantissaOf bits % 2 = bits % 2 := by
    unfold mantissaOf hiddenBit
    split <;> omega
  rw [ofBits, ofBinary, hparity]

theorem mantissaOf_of_narrow {bits : ℕ} (h : isWideAt bits = false) :
    mantissaOf bits = hiddenBit := by
  simp only [isWideAt, Bool.or_eq_false_iff, bne_eq_false_iff_eq, decide_eq_false_iff_not] at h
  unfold mantissaOf
  rw [if_neg (by omega), h.1, Nat.zero_add]

/-- The next double has the next mantissa, or the least of the next exponent. -/
theorem fields_succ (bits : ℕ) :
    (mantissaOf (bits + 1) = mantissaOf bits + 1 ∧ exponentOf (bits + 1) = exponentOf bits ∧
        isWideAt (bits + 1) = true) ∨
      (mantissaOf bits + 1 = 2 * mantissaOf (bits + 1) ∧
        exponentOf (bits + 1) = exponentOf bits + 1 ∧ isWideAt (bits + 1) = false) := by
  unfold mantissaOf exponentOf isWideAt
  by_cases hcarry : bits % hiddenBit + 1 = hiddenBit
  · have hfraction : (bits + 1) % hiddenBit = 0 := by
      unfold hiddenBit at hcarry ⊢
      omega
    have hquotient : (bits + 1) / hiddenBit = bits / hiddenBit + 1 := by
      unfold hiddenBit at hcarry ⊢
      omega
    rw [hfraction, hquotient]
    by_cases hsubnormal : bits / hiddenBit = 0
    · have hbits : bits = bits % hiddenBit := by
        unfold hiddenBit at hsubnormal ⊢
        omega
      left
      simp [hsubnormal]
      omega
    · right
      simp [hsubnormal]
      omega
  · have hfraction : (bits + 1) % hiddenBit = bits % hiddenBit + 1 := by
      unfold hiddenBit at hcarry ⊢
      omega
    have hquotient : (bits + 1) / hiddenBit = bits / hiddenBit := by
      unfold hiddenBit at hcarry ⊢
      omega
    left
    rw [hfraction, hquotient]
    refine ⟨?_, rfl, rfl⟩
    split <;> omega

/-- An interval ends where the next begins. -/
theorem highest_ofBits (bits : ℕ) :
    (ofBits bits).highest = (ofBits (bits + 1)).lowest := by
  rw [ofBits, ofBits, highest_ofBinary, lowest_ofBinary]
  rcases fields_succ bits with ⟨hmantissa, hexponent, hwide⟩ | ⟨hmantissa, hexponent, hwide⟩
  · have hquarters : 4 * mantissaOf bits + 2 = 4 * (mantissaOf bits + 1) - 2 := by omega
    rw [hexponent, hwide, hmantissa, hquarters, if_pos rfl]
  · have hquarters : 4 * mantissaOf bits + 2 = (4 * mantissaOf (bits + 1) - 1) * 2 := by omega
    have hdouble : exponentOf bits + 1 - 2 = exponentOf bits - 2 + 1 := by ring
    rw [hexponent, hwide, hquarters, hdouble, zpow_add_one₀ (by norm_num), if_neg (by decide)]
    push_cast
    ring

theorem lowest_ofBits_pos {bits : ℕ} (h : 0 < bits) : 0 < (ofBits bits).lowest := by
  have hmantissa := mantissaOf_pos h
  have hquarters : 0 < 4 * mantissaOf bits - if isWideAt bits then 2 else 1 := by
    split <;> omega
  rw [ofBits, lowest_ofBinary]
  exact mul_pos (Nat.cast_pos.mpr hquarters) (by positivity)

/-- Greater doubles have intervals that begin later. -/
theorem lowest_lt_lowest {bits others : ℕ} (hpos : 0 < bits) (h : bits < others) :
    (ofBits bits).lowest < (ofBits others).lowest := by
  induction others, h using Nat.le_induction with
  | base =>
    rw [← highest_ofBits]
    exact (proper_ofBits hpos).lowest_lt.trans (proper_ofBits hpos).lt_highest
  | succ others hle ih =>
    have hothers : 0 < others := hpos.trans_le (Nat.le_of_succ_le hle)
    rw [← highest_ofBits]
    exact ih.trans ((proper_ofBits hothers).lowest_lt.trans (proper_ofBits hothers).lt_highest)

/-- No number lies in the intervals of two doubles. -/
theorem bits_eq_of_contains {bits others : ℕ} (hbits : 0 < bits) (hothers : 0 < others) {v : ℚ}
    (h : (ofBits bits).Contains v) (h' : (ofBits others).Contains v) : bits = others := by
  wlog hle : bits ≤ others generalizing bits others
  · exact (this hothers hbits h' h (Nat.le_of_not_le hle)).symm
  by_contra hne
  have hlt : bits + 1 ≤ others := Nat.lt_of_le_of_ne hle hne
  have hend := h.bounds.2
  have hstart := h'.bounds.1
  rw [highest_ofBits] at hend
  rcases Nat.lt_or_eq_of_le hlt with hfar | rfl
  · have hbetween := lowest_lt_lowest (Nat.succ_pos bits) hfar
    linarith
  · -- neighbours share an end, which belongs to the even one of them
    have hshared : v = (ofBits (bits + 1)).lowest := le_antisymm hend hstart
    have heven := h.closed (Or.inr (hshared.trans (highest_ofBits bits).symm))
    have heven' := h'.closed (Or.inl hshared)
    rw [closed_ofBits, beq_iff_eq] at heven heven'
    omega

end Interval

/-! ### Doubles -/

/-- The bits of a double besides its sign. -/
def magnitudeBits (x : Float) : ℕ := x.toBits.toNat % 2 ^ 63

theorem ofFloat_eq (x : Float) : Interval.ofFloat x = Interval.ofBits (magnitudeBits x) := by
  have hfraction : magnitudeBits x % Interval.hiddenBit = x.toBits.toNat % Interval.hiddenBit := by
    unfold magnitudeBits Interval.hiddenBit
    omega
  have hexponent : magnitudeBits x / Interval.hiddenBit =
      x.toBits.toNat / Interval.hiddenBit % 0x800 := by
    unfold magnitudeBits Interval.hiddenBit
    omega
  unfold Interval.ofFloat Interval.ofBits Interval.mantissaOf Interval.exponentOf Interval.isWideAt
  dsimp only
  rw [hfraction, hexponent]
  split
  next hzero =>
    have hbits : magnitudeBits x = x.toBits.toNat % Interval.hiddenBit := by
      rw [← hfraction]
      unfold Interval.hiddenBit at hzero hexponent ⊢
      omega
    simp [hzero, hbits]
  next hnonzero =>
    have hone : (x.toBits.toNat / Interval.hiddenBit % 0x800 == 1) =
        decide (x.toBits.toNat / Interval.hiddenBit % 0x800 ≤ 1) := by
      rw [Bool.eq_iff_iff, beq_iff_eq, decide_eq_true_iff]
      omega
    rw [hone]

open Float.Model UnpackedFloat in
theorem compare_zero_iff {a : UnpackedFloat} :
    a.compare (.zero .positive) = some .eq ↔ ∃ s, a = .zero s := by
  cases a with
  | notANumber => simp [UnpackedFloat.compare]
  | infinity s => cases s <;> simp [UnpackedFloat.compare]
  | zero s => simp [UnpackedFloat.compare]
  | finite s m e hm => cases s <;> simp [UnpackedFloat.compare]

open Float.Model UnpackedFloat in
theorem beq_zero_iff {x : Float} : (x == 0) = true ↔ magnitudeBits x = 0 := by
  have hparts : magnitudeBits x = 0 ↔
      @unpackExponent Format.binary64 x.toModel.toBits.toBitVec = 0 ∧
        @unpackMantissa Format.binary64 x.toModel.toBits.toBitVec = 0 := by
    rw [BitVec.toNat_eq, BitVec.toNat_eq, Cost.toNat_exponent, Cost.toNat_mantissa]
    change x.toBits.toNat % 2 ^ 63 = 0 ↔
      x.toBits.toNat / 2 ^ 52 % 2 ^ 11 = 0 ∧ x.toBits.toNat % 2 ^ 52 = 0
    omega
  have hzero : (0 : Float).toModel.unpack = .zero .positive := rfl
  rw [Cost.beq_iff, hzero, compare_zero_iff, hparts]
  unfold Float.Model.unpack UnpackedFloat.unpack
  dsimp only
  split_ifs with hones hnone hleast hnone <;> simp_all

/-- What is written for a double other than zero lies in its interval. -/
theorem contains_shortest (tie : Tie) {x : Float} (hx : magnitudeBits x ≠ 0) :
    (Interval.ofBits (magnitudeBits x)).Contains (shortest tie x).value := by
  have hpos := Nat.pos_of_ne_zero hx
  have hbeq : ¬ (x == 0) = true := fun h => hx (beq_zero_iff.mp h)
  rw [shortest, if_neg hbeq, ofFloat_eq]
  apply Interval.contains_search (Interval.proper_ofBits hpos) tie
  exact Interval.wide_ofBinary (Interval.mantissaOf_pos hpos) (Interval.mantissaOf_lt _)
    Interval.mantissaOf_of_narrow

theorem value_shortest_eq_zero_iff {tie : Tie} {x : Float} :
    (shortest tie x).value = 0 ↔ magnitudeBits x = 0 := by
  constructor
  · intro hvalue
    by_contra hx
    have hlow := (contains_shortest tie hx).bounds.1
    have hpos := Interval.lowest_ofBits_pos (Nat.pos_of_ne_zero hx)
    linarith
  · intro hx
    rw [shortest, if_pos (beq_zero_iff.mpr hx)]
    simp [Scaled.value]

/-- The shortest decimal settles a double up to its sign. -/
theorem magnitudeBits_eq_of_value_eq {tie : Tie} {x y : Float}
    (h : (shortest tie x).value = (shortest tie y).value) : magnitudeBits x = magnitudeBits y := by
  by_cases hx : magnitudeBits x = 0
  · rw [value_shortest_eq_zero_iff.mpr hx] at h
    rw [hx, value_shortest_eq_zero_iff.mp h.symm]
  · have hy : magnitudeBits y ≠ 0 := by
      intro hy
      rw [value_shortest_eq_zero_iff.mpr hy] at h
      exact hx (value_shortest_eq_zero_iff.mp h)
    apply Interval.bits_eq_of_contains (Nat.pos_of_ne_zero hx) (Nat.pos_of_ne_zero hy)
    · exact contains_shortest tie hx
    · rw [h]
      exact contains_shortest tie hy

/-- Equal bits besides the sign and equal signs make equal doubles. -/
theorem eq_of_magnitudeBits {x y : Float} (hbits : magnitudeBits x = magnitudeBits y)
    (hsign : isNegative x = isNegative y) : x = y := by
  apply Cost.eq_of_bits
  rw [BitVec.toNat_eq]
  change x.toBits.toNat = y.toBits.toNat
  have hx : x.toBits.toNat < 2 ^ 64 := x.toBits.toNat_lt
  have hy : y.toBits.toNat < 2 ^ 64 := y.toBits.toNat_lt
  unfold isNegative at hsign
  rw [decide_eq_decide] at hsign
  unfold magnitudeBits at hbits
  omega

end QueryGrammar.Decimal
