import Mathlib
import QueryGrammar.Json.Basic
import QueryGrammar.Proofs.Semantic.Rounding
/-!
Numbers that are read are finite. Digits that fit in 64 bits leave most of the range of exponents
free, and a quotient by a power of ten raises the exponent by little if at all, so the few steps of
scaling down stay within the range; scaling up refuses what is infinite.
-/
namespace QueryGrammar.Cost

open Float.Model UnpackedFloat

/-! ### Exponents -/

/-- A zero, or a number whose exponent is at most `b`. -/
def Within (b : ℤ) : UnpackedFloat → Prop
  | .zero _ => True
  | .finite _ _ e _ => e ≤ b
  | _ => False

variable {b : ℤ} {u v : UnpackedFloat}

theorem Within.isFinite (h : Within b u) : u.isFinite = true := by
  cases u with
  | zero | finite => rfl
  | _ => exact h.elim

theorem Within.mono {c : ℤ} (h : Within b u) (hbc : b ≤ c) : Within c u := by
  cases u with
  | zero => trivial
  | finite s m e hm => exact le_trans (b := b) h hbc
  | _ => exact h.elim

theorem within_unpack {bits : BitVec Format.binary64.numBits}
    (h : unpackExponent bits ≠ -1#11) (hb : -1074 ≤ b)
    (hexponent : ((unpackExponent bits).toNat : ℤ) ≤ b + 1075) :
    Within b (UnpackedFloat.unpack .binary64 bits) := by
  have hbias : (Format.binary64.exponentBias : ℤ) = 1023 := rfl
  have hbits : (Format.binary64.mantissaBitsWithoutImplicit : ℤ) = 52 := rfl
  unfold UnpackedFloat.unpack
  dsimp only
  rw [if_neg h, hbias]
  split_ifs with hzero hnone
  · trivial
  · have he : (unpackExponent bits).toNat = 0 := by rw [hzero]; rfl
    simp only [Within]
    omega
  · simp only [Within]
    omega

/-- Packing keeps a number whose exponent is not above the largest there is. -/
theorem Within.unpack_pack (h : Within b u) (hlow : -1074 ≤ b) (hhigh : b ≤ 971) :
    Within b (UnpackedFloat.unpack .binary64 (UnpackedFloat.pack .binary64 u)) := by
  cases u with
  | zero s =>
    refine within_unpack ?_ hlow ?_ <;>
      rw [UnpackedFloat.pack, packedZero, unpackExponent_packComponents]
    · decide
    · change ((0 : ℕ) : ℤ) ≤ b + 1075
      omega
  | finite s m e hm =>
    have he : e ≤ b := h
    have hexponent : (BitVec.ofNat 11 (e + 1075).toNat).toNat = (e + 1075).toNat := by
      rw [BitVec.toNat_ofNat, Nat.mod_eq_of_lt (by omega)]
    rw [UnpackedFloat.pack]
    dsimp only
    rw [biased_eq, if_neg (by norm_num; omega)]
    split_ifs
    · refine within_unpack ?_ hlow ?_ <;> rw [unpackExponent_packComponents]
      · rw [ne_eq, BitVec.toNat_eq, hexponent]
        simp
        omega
      · rw [hexponent]
        omega
    · refine within_unpack ?_ hlow ?_ <;> rw [unpackExponent_packComponents]
      · decide
      · simp only [BitVec.toNat_ofNat]
        omega
  | _ => exact h.elim

/-! ### Products and quotients -/

theorem mantissa_shiftRight_le (em : ExtendedMantissa) (k : ℕ) :
    (em >>> k).mantissa ≤ em.mantissa := by
  induction k with
  | zero => exact le_rfl
  | succ k ih =>
    calc (em >>> (k + 1)).mantissa = (em >>> k).mantissa / 2 := rfl
      _ ≤ (em >>> k).mantissa := Nat.div_le_self _ _
      _ ≤ em.mantissa := ih

theorem roundedMantissa_le (em : ExtendedMantissa) : em.roundedMantissa ≤ em.mantissa + 1 := by
  obtain ⟨m, r, s⟩ := em
  cases r <;> cases s <;>
    simp only [ExtendedMantissa.roundedMantissa, ExtendedMantissa.accuracy,
      Accuracy.roundToNearestEven] <;> omega

theorem mantissa_ofMantissaAndAccuracy (m : ℕ) (a : Accuracy) :
    (ExtendedMantissa.ofMantissaAndAccuracy m a).mantissa = m := by
  cases a with
  | exact => rfl
  | inexact o => cases o <;> rfl

theorem targetExponent_le {m : ℕ} {e : ℤ} {k : ℕ} (hm : m < 2 ^ (k + 54)) (hb : -1074 ≤ b)
    (he : e ≤ b) : Format.binary64.targetExponent (totalExponent m e) ≤ b + (k + 1) := by
  have hmin : Format.binary64.minExponent = -1074 := by decide
  have hbits : (Format.binary64.mantissaBits : ℤ) = 53 := by decide
  have hlog : m.log2 < k + 54 := by
    obtain rfl | hpos := Nat.eq_zero_or_pos m
    · simp
    · exact (Nat.log2_lt hpos.ne').mpr hm
  rw [Format.targetExponent, totalExponent, hmin, hbits]
  omega

/-- Rounding a mantissa with at most a bit too many raises the exponent by three at most. -/
theorem within_roundWithAccuracy (s : Sign) {m : ℕ} {e : ℤ} (a : Accuracy) (hm : m < 2 ^ 54)
    (hb : -1074 ≤ b) (he : e ≤ b) :
    Within (b + 3) (roundWithAccuracy .binary64 s m e a) := by
  have hfirst := targetExponent_le (k := 0) hm hb he
  unfold roundWithAccuracy shiftToTargetExponent shiftToExponent
  dsimp only
  split
  · trivial
  · have hrounded := (roundedMantissa_le _).trans (Nat.succ_le_succ (mantissa_shiftRight_le
      (ExtendedMantissa.ofMantissaAndAccuracy m a)
      (Format.binary64.targetExponent (totalExponent m e) - e).toNat))
    rw [mantissa_ofMantissaAndAccuracy] at hrounded
    have hsecond := targetExponent_le (k := 1) (b := b + 1)
      (lt_of_le_of_lt hrounded (by omega)) (by omega)
      (show e + (Format.binary64.targetExponent (totalExponent m e) - e).toNat ≤ b + 1 by omega)
    simp only [Within]
    omega

/-- A number with a mantissa that fits. -/
def Fits : UnpackedFloat → Prop
  | .finite _ m _ _ => m < 2 ^ 53
  | _ => True

/-- A number that is at least one. -/
def AtLeastOne : UnpackedFloat → Prop
  | .finite _ m e _ => 0 ≤ (m.log2 : ℤ) + e
  | _ => False

theorem quotient_lt {m n k : ℕ} (hn : 0 < n) (hm : m < 2 ^ 53)
    (hk : k = 0 ∨ m.log2 + k ≤ n.log2 + 53) : (m <<< k) / n < 2 ^ 54 := by
  rw [Nat.shiftLeft_eq]
  refine Nat.div_lt_of_lt_mul ?_
  rcases hk with rfl | hk
  · calc m * 2 ^ 0 = m := Nat.mul_one m
      _ < 2 ^ 54 := by omega
      _ ≤ n * 2 ^ 54 := Nat.le_mul_of_pos_left _ hn
  · calc m * 2 ^ k < 2 ^ (m.log2 + 1) * 2 ^ k :=
        Nat.mul_lt_mul_of_pos_right Nat.lt_log2_self (by positivity)
      _ = 2 ^ (m.log2 + k + 1) := by rw [← pow_add]; congr 1; omega
      _ ≤ 2 ^ (n.log2 + 54) := Nat.pow_le_pow_right (by decide) (by omega)
      _ = 2 ^ n.log2 * 2 ^ 54 := pow_add ..
      _ ≤ n * 2 ^ 54 := Nat.mul_le_mul_right _ (Nat.log2_self_le hn.ne')

theorem within_div (hu : Within b u) (hfits : Fits u) (hv : AtLeastOne v) (hb : -1074 ≤ b) :
    Within (b + 3) (UnpackedFloat.div .binary64 u v) := by
  cases v with
  | finite t n f hn =>
    cases u with
    | zero s => trivial
    | finite s m e hm =>
      have he : e ≤ b := hu
      have hone : 0 ≤ (n.log2 : ℤ) + f := hv
      have hmin : Format.binary64.minExponent = -1074 := by decide
      have hbits : (Format.binary64.mantissaBits : ℤ) = 53 := by decide
      have hlog : m.log2 < 53 := (Nat.log2_lt hm.ne').mpr hfits
      rw [UnpackedFloat.div]
      dsimp only [divCore]
      rw [Format.targetExponent, totalExponent, totalExponent, hmin, hbits]
      refine within_roundWithAccuracy _ _ (quotient_lt hn hfits ?_) hb ?_ <;> omega
    | _ => exact hu.elim
  | _ => exact hv.elim

/-- What is packed is finite or infinite, unless it was no number before. -/
theorem isFinite_unpack_pack (hu : u ≠ .notANumber)
    (hinf : (UnpackedFloat.unpack .binary64 (UnpackedFloat.pack .binary64 u)).isInf = false) :
    (UnpackedFloat.unpack .binary64 (UnpackedFloat.pack .binary64 u)).isFinite = true := by
  cases u with
  | notANumber => exact absurd rfl hu
  | infinity s => cases s <;> exact absurd hinf (by decide)
  | zero s =>
    have hwithin : Within 0 (.zero s) := trivial
    exact (hwithin.unpack_pack (by decide) (by decide)).isFinite
  | finite s m e hm =>
    by_cases he : e ≤ 971
    · have hwithin : Within (max e (-1074)) (.finite s m e hm) := le_max_left e (-1074)
      exact (hwithin.unpack_pack (le_max_right _ _) (by omega)).isFinite
    · have hpack : UnpackedFloat.pack .binary64 (.finite s m e hm) = packedInfinity .binary64 s := by
        rw [UnpackedFloat.pack]
        dsimp only
        rw [biased_eq, if_pos (by norm_num; omega)]
      rw [hpack] at hinf
      cases s <;> exact absurd hinf (by decide)

theorem roundWithAccuracy_ne_notANumber (s : Sign) (m : ℕ) (e : ℤ) (a : Accuracy) :
    roundWithAccuracy .binary64 s m e a ≠ .notANumber := by
  unfold roundWithAccuracy
  dsimp only
  split <;> exact nofun

theorem mul_ne_notANumber (hu : u.isFinite = true) (hv : v.isFinite = true) :
    UnpackedFloat.mul .binary64 u v ≠ .notANumber := by
  cases u <;> cases v <;>
    simp_all [UnpackedFloat.mul, UnpackedFloat.isFinite, roundWithAccuracy_ne_notANumber]

/-! ### Whole numbers -/

theorem log2_steps {m : ℕ} (hm : 0 < m) (e : ℤ) : (steps m e).log2 = (e + 1074).toNat + m.log2 :=
  log2_pow_mul hm.ne' _

/-- The number nearest to `k` steps. -/
def Nearest (k : ℕ) (u : UnpackedFloat) : Prop :=
  ∃ m e h, u = .finite .positive m e h ∧ Canonical m e ∧ steps m e = settle k

variable {k : ℕ}

theorem Nearest.isFinite (h : Nearest k u) : u.isFinite = true := by
  obtain ⟨m, e, hm, rfl, -, -⟩ := h
  rfl

theorem Nearest.unpack_pack (h : Nearest k u) (hlimit : settle k < limit) :
    Nearest k (UnpackedFloat.unpack .binary64 (UnpackedFloat.pack .binary64 u)) := by
  obtain ⟨m, e, hm, rfl, hcanonical, hsteps⟩ := h
  have he : e ≤ 971 := (steps_lt_limit_iff hcanonical).mp (hsteps ▸ hlimit)
  exact ⟨m, e, hm, Cost.unpack_pack hm hcanonical he, hcanonical, hsteps⟩

theorem nearest_mul {m n : ℕ} {e f : ℤ} (hm : 0 < m) (hn : 0 < n) (he : -1074 ≤ e + f)
    (hlong : 2 ^ 52 ≤ m * n) :
    Nearest (steps (m * n) (e + f))
      (UnpackedFloat.mul .binary64 (.finite .positive m e hm) (.finite .positive n f hn)) := by
  have hpos : 0 < m * n := Nat.mul_pos hm hn
  have hlog : 52 ≤ (m * n).log2 := (Nat.le_log2 hpos.ne').mpr hlong
  refine exists_roundWithAccuracy hpos he ?_
  rw [targetExponent_eq hpos he, log2_steps hpos]
  omega

theorem steps_shift (m : ℕ) {j : ℕ} {e f : ℤ} (he : -1074 ≤ e) (hf : f = e + j) :
    steps (2 ^ j * m) e = steps m f := by
  rw [steps, steps, ← Nat.mul_assoc, ← pow_add,
    show (e + 1074).toNat + j = (f + 1074).toNat by omega]

theorem steps_mono {m n : ℕ} {e : ℤ} (h : m ≤ n) : steps m e ≤ steps n e :=
  Nat.mul_le_mul_left _ h

theorem settle_steps_of_lt {m : ℕ} {e : ℤ} (h : m < 2 ^ 53) : settle (steps m e) = steps m e :=
  settle_pow_mul h _

/-- Up to the largest finite number nothing is rounded to infinity. -/
theorem settle_lt_limit {n : ℕ} (h : n ≤ 2 ^ 971 * (2 ^ 53 - 1)) :
    settle (steps n 0) < limit := by
  have hlargest : steps (2 ^ 971 * (2 ^ 53 - 1)) 0 = steps (2 ^ 53 - 1) 971 :=
    steps_shift _ (by decide) (by decide)
  calc settle (steps n 0) ≤ settle (steps (2 ^ 53 - 1) 971) :=
        (settle_mono (steps_mono h)).trans_eq (congrArg settle hlargest)
    _ = steps (2 ^ 53 - 1) 971 := settle_steps_of_lt (by decide)
    _ < limit := (steps_lt_limit_iff ⟨by decide, by decide, .inl (by decide)⟩).mpr le_rfl

theorem nearest_ofUInt64 {n : UInt64} (hpos : 0 < n.toNat) :
    Nearest (steps n.toNat 0) n.toFloat.toModel.unpack := by
  obtain ⟨m, e, hm, hround, hcanonical, hsteps⟩ := exists_round hpos (e := 0) (by decide)
  have hnormal : UnpackedFloat.ofUInt64 .binary64 n = .finite .positive m e hm := by
    have hcompare : compare ((n.toNat : ℕ) : ℤ) 0 = .gt := Int.compare_eq_gt.mpr (by omega)
    change UnpackedFloat.normalize .binary64 n.toNat 0 .positive = _
    rw [UnpackedFloat.normalize, hcompare]
    exact hround
  have hk : Nearest (steps n.toNat 0) (UnpackedFloat.ofUInt64 .binary64 n) :=
    ⟨m, e, hm, hnormal, hcanonical, hsteps⟩
  refine hk.unpack_pack (settle_lt_limit ?_)
  calc n.toNat ≤ 2 ^ 64 := n.toNat_lt.le
    _ ≤ 2 ^ 971 * (2 ^ 53 - 1) := by decide +kernel

theorem one_le_of_nearest {n : ℕ} (hn : 0 < n) (h : Nearest (steps n 0) u) : AtLeastOne u := by
  obtain ⟨m, e, hm, rfl, hcanonical, hsteps⟩ := h
  have hle : steps 1 0 ≤ steps m e := by
    rw [hsteps, ← settle_steps_of_lt (m := 1) (e := 0) (by decide)]
    exact settle_mono (steps_mono hn)
  have hlog := log2_mono hle
  rw [log2_steps one_pos, log2_steps hm, show Nat.log2 1 = 0 by decide] at hlog
  have hlow := hcanonical.le
  change 0 ≤ (m.log2 : ℤ) + e
  omega

/-- A small whole number is converted exactly and multiplied by one. -/
theorem nearest_ofNat_of_lt {n : ℕ} (hpos : 0 < n) (hn : n < 2 ^ 53) :
    Nearest (steps n 0) (Float.ofNat n).toModel.unpack := by
  obtain ⟨one, hone, heq⟩ : ∃ one : Float,
      one.toModel.unpack = .finite .positive (2 ^ 52) (-52) (by decide) ∧
        Float.ofNat n = n.toUInt64.toFloat * one := by
    refine ⟨Float.ofBits 0x3FF0000000000000, ?_, dif_pos ⟨hn, by decide⟩⟩
    rfl
  have hexact : n.toUInt64.toNat = n := by
    rw [Nat.toUInt64, UInt64.toNat_ofNat', Nat.mod_eq_of_lt (by omega)]
  have hconverted := nearest_ofUInt64 (n := n.toUInt64) (by omega)
  rw [hexact] at hconverted
  have hlarge := one_le_of_nearest hpos hconverted
  obtain ⟨m, e, hm, hunpack, hcanonical, hsteps⟩ := hconverted
  rw [hunpack] at hlarge
  have hlog : m.log2 < 53 := (Nat.log2_lt hm.ne').mpr hcanonical.lt
  have he : 0 ≤ (m.log2 : ℤ) + e := hlarge
  have hproduct := nearest_mul (m := m) (n := 2 ^ 52) (e := e) (f := -52) hm (by decide)
    (by omega) (Nat.le_mul_of_pos_left _ hm)
  have hsame : steps (m * 2 ^ 52) (e + -52) = steps n 0 := by
    rw [Nat.mul_comm m]
    exact (steps_shift m (by omega) (by omega)).trans (hsteps.trans (settle_steps_of_lt hn))
  rw [hsame, ← hunpack, ← hone] at hproduct
  rw [heq]
  refine hproduct.unpack_pack (settle_lt_limit ?_)
  calc n ≤ 2 ^ 53 := hn.le
    _ ≤ 2 ^ 971 * (2 ^ 53 - 1) := by decide +kernel

/-- A whole number that is not zero is converted to the nearest double. -/
theorem nearest_ofNat {n : ℕ} (hpos : 0 < n) (hn : n ≤ 2 ^ 971 * (2 ^ 53 - 1)) :
    Nearest (steps n 0) (Float.ofNat n).toModel.unpack := by
  by_cases hsmall : n < 2 ^ 53
  · exact nearest_ofNat_of_lt hpos hsmall
  · have hshifted : 0 < n <<< 53 := by
      rw [Nat.shiftLeft_eq]
      positivity
    have hproduct := nearest_mul (e := -53) (f := 0) hshifted one_pos (by decide)
      (by rw [Nat.shiftLeft_eq]; omega)
    have hsame : steps (n <<< 53 * 1) (-53 + 0) = steps n 0 := by
      rw [Nat.mul_one, Nat.shiftLeft_eq, Nat.mul_comm]
      exact steps_shift n (by decide) (by decide)
    have hscientific : UnpackedFloat.ofScientific .binary64 n 0 = UnpackedFloat.mul .binary64
        (.finite .positive (n <<< 53) (-53) hshifted) (.finite .positive 1 0 one_pos) := by
      have hrange : (0 : ℤ) < 2 ^ Format.binary64.exponentBits := by positivity
      rw [UnpackedFloat.ofScientific, dif_neg hpos.ne', if_neg hrange.le.not_gt,
        if_neg (by omega), if_pos le_rfl]
      rfl
    have heq : Float.ofNat n = ⟨Float.Model.ofScientific n 0⟩ := dif_neg fun h => hsmall h.1
    rw [hsame, ← hscientific] at hproduct
    rw [heq]
    exact hproduct.unpack_pack (settle_lt_limit hn)

theorem within_ofNat {n : ℕ} (h : n < 2 ^ 64) : Within 12 (Float.ofNat n).toModel.unpack := by
  obtain rfl | hpos := Nat.eq_zero_or_pos n
  · trivial
  · obtain ⟨m, e, hm, hunpack, hcanonical, hsteps⟩ :=
      nearest_ofNat hpos (h.le.trans (by decide +kernel))
    have hle : steps m e ≤ steps 1 64 := by
      rw [hsteps, ← settle_steps_of_lt (m := 1) (e := 64) (by decide),
        ← steps_shift (j := 64) 1 (e := 0) (by decide) (by decide)]
      exact settle_mono (steps_mono (by omega))
    have hlog := log2_mono hle
    rw [log2_steps hm, log2_steps one_pos, show Nat.log2 1 = 0 by decide] at hlog
    have he : e ≤ 12 := by
      rcases hcanonical.full with hfull | rfl
      · have hlong : 52 ≤ m.log2 := (Nat.le_log2 hm.ne').mpr hfull
        omega
      · decide
    rw [hunpack]
    exact he

end QueryGrammar.Cost

namespace QueryGrammar.Numeral

open Cost Float.Model

/-! ### Scaling -/

theorem absorb_lt {significand : Nat} (h : significand < UInt64.size) (digits : List Char) :
    (absorb significand digits).1 < UInt64.size := by
  induction digits generalizing significand with
  | nil => exact h
  | cons c cs ih =>
    rw [absorb]
    split
    next hnext => exact ih hnext
    next => exact h

theorem nearest_powerOfTen {n : Nat} (h : n ≤ 308) :
    Nearest (steps (10 ^ n) 0) (powerOfTen n).toModel.unpack := by
  refine nearest_ofNat (by positivity) ?_
  calc 10 ^ n ≤ 10 ^ 308 := Nat.pow_le_pow_right (by decide) h
    _ ≤ 2 ^ 971 * (2 ^ 53 - 1) := by decide +kernel

variable {b : Int} {x y : Float}

theorem fits_unpack (x : Float) : Fits x.toModel.unpack := by
  cases h : x.toModel.unpack with
  | finite s m e hm => exact (canonical_of_unpack h).1.lt
  | _ => trivial

/-- A quotient by a power of ten stays within the range. -/
theorem within_div_powerOfTen {n : Nat} (hx : Within b x.toModel.unpack) (hn : n ≤ 308)
    (hlow : -1074 ≤ b) (hhigh : b + 3 ≤ 971) :
    Within (b + 3) (x / powerOfTen n).toModel.unpack := by
  have hone := one_le_of_nearest (by positivity) (nearest_powerOfTen hn)
  have hdiv := within_div hx (fits_unpack x) hone hlow
  exact hdiv.unpack_pack (by omega) hhigh

theorem within_scaleDown (steps n : Nat) (hx : Within b x.toModel.unpack) (hlow : -1074 ≤ b)
    (hhigh : b + 3 * steps ≤ 971) :
    Within (b + 3 * steps) (scaleDown steps x n).toModel.unpack := by
  induction steps generalizing b x n with
  | zero => exact hx.mono (by omega)
  | succ steps ih =>
    rw [scaleDown]
    split_ifs with hn
    · exact (within_div_powerOfTen hx hn hlow (by omega)).mono (by omega)
    · exact hx.mono (by omega)
    · have hquotient := within_div_powerOfTen hx (n := 308) le_rfl hlow (by omega)
      exact (ih _ hquotient (by omega) (by omega)).mono (by omega)

/-- What a significand of 64 bits is scaled to is finite. -/
theorem isFinite_of_scale? {significand : Nat} {exponent : Int} (h : significand < UInt64.size)
    (hscale : scale? significand exponent = some x) : x.isFinite = true := by
  have hbits : significand < 2 ^ 64 := h
  have hwithin := within_ofNat hbits
  unfold scale? at hscale
  dsimp only at hscale
  split_ifs at hscale with hneg hsmall hinf hzero
  · obtain rfl := Option.some.inj hscale
    exact (within_scaleDown 4 _ hwithin (by decide) (by decide)).isFinite
  · obtain rfl := Option.some.inj hscale
    have hpower := nearest_powerOfTen (n := exponent.toNat) (by omega)
    exact isFinite_unpack_pack (mul_ne_notANumber hwithin.isFinite hpower.isFinite)
      (Bool.eq_false_iff.mpr hinf)
  · obtain rfl := Option.some.inj hscale
    exact hwithin.isFinite

theorem isFinite_neg (h : x.isFinite = true) : (-x).isFinite = true := by
  have hunpack : x.toModel.unpack.isFinite = true := h
  cases hx : x.toModel.unpack with
  | zero s =>
    have hwithin : Within 0 x.toModel.unpack.neg := by rw [hx]; trivial
    exact (hwithin.unpack_pack (by decide) (by decide)).isFinite
  | finite s m e hm =>
    have hwithin : Within 971 x.toModel.unpack.neg := by
      rw [hx]
      exact (canonical_of_unpack hx).2
    exact (hwithin.unpack_pack (by decide) le_rfl).isFinite
  | _ => rw [hx] at hunpack; cases hunpack

/-- Only finite numbers are read. -/
theorem isFinite_of_toFloat? {n : Numeral} (h : n.toFloat? = some x) : x.isFinite = true := by
  have hsignificand : (absorb (absorb 0 n.whole).1 n.fraction).1 < UInt64.size :=
    absorb_lt (absorb_lt (by decide) _) _
  unfold toFloat? at h
  dsimp only at h
  split_ifs at h
  · obtain ⟨y, hy, rfl⟩ := Option.map_eq_some_iff.mp h
    exact isFinite_neg (isFinite_of_scale? hsignificand hy)
  · exact isFinite_of_scale? hsignificand h

end QueryGrammar.Numeral
