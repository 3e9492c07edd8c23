import Mathlib
import QueryGrammar.Semantic.Vocabulary
/-!
Costs without a minus sign. Two numbers that compare equal may still be written differently, but only
as the two zeros; among numbers without a minus sign equality is what comparing finds, and sums of
them have no minus sign either.
-/
namespace QueryGrammar.Cost

open Float.Model UnpackedFloat

/-- A number that has no minus sign. -/
def Positive : UnpackedFloat → Prop
  | .infinity s => s = .positive
  | .notANumber => True
  | .zero s => s = .positive
  | .finite s _ _ _ => s = .positive

/-! ### Parts of a number -/

theorem unpackSign_packComponents {spec : Format} {sign : Sign}
    {exponent : BitVec spec.exponentBits} {mantissa : BitVec spec.mantissaBitsWithoutImplicit} :
    unpackSign (packComponents spec sign exponent mantissa) = sign.toBitVec := by
  ext i hi
  have hlt : ¬ spec.mantissaBitsWithoutImplicit + spec.exponentBits + i <
      spec.mantissaBitsWithoutImplicit := by omega
  have hle : ¬ spec.mantissaBitsWithoutImplicit + spec.exponentBits + i -
      spec.mantissaBitsWithoutImplicit < spec.exponentBits := by omega
  have heq : spec.mantissaBitsWithoutImplicit + spec.exponentBits + i -
      spec.mantissaBitsWithoutImplicit - spec.exponentBits = i := by omega
  simp [unpackSign, packComponents, BitVec.getLsbD_append, hlt, hle, heq,
    BitVec.getLsbD_eq_getElem hi]

theorem toNat_mantissa (b : BitVec Format.binary64.numBits) :
    (unpackMantissa b).toNat = b.toNat % 2 ^ 52 := by
  simp [unpackMantissa, BitVec.extractLsb_toNat]

theorem toNat_exponent (b : BitVec Format.binary64.numBits) :
    (unpackExponent b).toNat = b.toNat / 2 ^ 52 % 2 ^ 11 := by
  simp [unpackExponent, BitVec.extractLsb_toNat, Nat.shiftRight_eq_div_pow]

theorem toNat_sign (b : BitVec Format.binary64.numBits) :
    (unpackSign b).toNat = b.toNat / 2 ^ 63 % 2 := by
  simp [unpackSign, BitVec.extractLsb_toNat, Nat.shiftRight_eq_div_pow]

/-- A number is determined by its sign, its exponent and its mantissa. -/
theorem ext_components {b c : BitVec Format.binary64.numBits}
    (hsign : unpackSign b = unpackSign c) (hexponent : unpackExponent b = unpackExponent c)
    (hmantissa : unpackMantissa b = unpackMantissa c) : b = c := by
  have hs := congrArg BitVec.toNat hsign
  have he := congrArg BitVec.toNat hexponent
  have hm := congrArg BitVec.toNat hmantissa
  rw [toNat_sign, toNat_sign] at hs
  rw [toNat_exponent, toNat_exponent] at he
  rw [toNat_mantissa, toNat_mantissa] at hm
  have hb : b.toNat < 2 ^ 64 := b.isLt
  have hc : c.toNat < 2 ^ 64 := c.isLt
  apply BitVec.eq_of_toNat_eq
  omega

theorem toNat_implicit (v : BitVec 52) : (1#1 ++ v).toNat = 2 ^ 52 + v.toNat := by
  rw [BitVec.toNat_append, ← Nat.shiftLeft_add_eq_or_of_lt v.isLt]
  simp [Nat.shiftLeft_eq]

/-- Numbers without a minus sign are told apart by what they stand for. -/
theorem unpack_inj {b c : BitVec Format.binary64.numBits} (hb : unpackSign b = 0#1)
    (hc : unpackSign c = 0#1) (hne : UnpackedFloat.unpack Format.binary64 b ≠ .notANumber)
    (h : UnpackedFloat.unpack Format.binary64 b = UnpackedFloat.unpack Format.binary64 c) :
    b = c := by
  have hbm : (unpackMantissa b).toNat < 2 ^ 52 := (unpackMantissa b).isLt
  have hcm : (unpackMantissa c).toNat < 2 ^ 52 := (unpackMantissa c).isLt
  have hparts : unpackExponent b = unpackExponent c ∧ unpackMantissa b = unpackMantissa c := by
    simp only [BitVec.toNat_eq]
    unfold UnpackedFloat.unpack at h hne
    dsimp only at h hne
    split_ifs at h hne <;> simp_all [toNat_implicit]
    omega
  exact ext_components (hb.trans hc.symm) hparts.1 hparts.2

/-! ### Sums -/

theorem positive_roundWithAccuracy (spec : Format) (m : Nat) (e : Int) (a : Accuracy) :
    Positive (roundWithAccuracy spec .positive m e a) := by
  unfold roundWithAccuracy
  dsimp only
  split <;> rfl

theorem positive_normalize (spec : Format) {m : Int} (h : 0 ≤ m) (e : Int) :
    Positive (UnpackedFloat.normalize spec m e .positive) := by
  unfold UnpackedFloat.normalize
  split
  next hlt =>
    have hneg := Int.compare_eq_lt.mp hlt
    omega
  next => rfl
  next => exact positive_roundWithAccuracy _ _ _ _

theorem positive_add (spec : Format) {a b : UnpackedFloat} (ha : Positive a) (hb : Positive b) :
    Positive (UnpackedFloat.add spec a b) := by
  unfold UnpackedFloat.add
  split
  · trivial
  · trivial
  next s t =>
    obtain rfl : s = .positive := ha
    obtain rfl : t = .positive := hb
    rfl
  next => exact ha
  next => exact hb
  next s t =>
    obtain rfl : s = .positive := ha
    obtain rfl : t = .positive := hb
    rfl
  next => exact hb
  next => exact ha
  next s m e hm t n f hn =>
    obtain rfl : s = .positive := ha
    obtain rfl : t = .positive := hb
    refine positive_normalize spec ?_ _
    simp only [Sign.apply]
    positivity

theorem positive_zero_add (spec : Format) (s : Sign) {b : UnpackedFloat} (hb : Positive b) :
    Positive (UnpackedFloat.add spec (.zero s) b) := by
  cases b with
  | infinity t => exact hb
  | notANumber => trivial
  | zero t =>
    obtain rfl : t = .positive := hb
    cases s <;> rfl
  | finite t m e hm => exact hb

theorem unpackSign_pack {spec : Format} {f : UnpackedFloat} (h : Positive f) :
    unpackSign (UnpackedFloat.pack spec f) = 0#1 := by
  cases f with
  | infinity s =>
    obtain rfl : s = .positive := h
    exact unpackSign_packComponents
  | notANumber => exact unpackSign_packComponents
  | zero s =>
    obtain rfl : s = .positive := h
    exact unpackSign_packComponents
  | finite s m e hm =>
    obtain rfl : s = .positive := h
    unfold UnpackedFloat.pack
    dsimp only
    split_ifs <;> exact unpackSign_packComponents

/-! ### Comparing -/

theorem compare_swap (a b : UnpackedFloat) : a.compare b = (b.compare a).map Ordering.swap := by
  cases a with
  | infinity s => cases b with
    | infinity t => cases s <;> cases t <;> rfl
    | _ => cases s <;> rfl
  | notANumber => cases b <;> rfl
  | zero s => cases b with
    | infinity t => cases t <;> rfl
    | finite t n f hn => cases t <;> rfl
    | _ => rfl
  | finite s m e hm => cases b with
    | infinity t => cases s <;> cases t <;> rfl
    | notANumber => cases s <;> rfl
    | zero t => cases s <;> rfl
    | finite t n f hn =>
      cases s <;> cases t <;>
        simp [UnpackedFloat.compare, Int.compare_swap, Nat.compare_swap, Ordering.swap_then]

theorem eq_of_compare {a b : UnpackedFloat} (ha : Positive a) (hb : Positive b)
    (h : a.compare b = some .eq) : a = b ∧ a ≠ .notANumber := by
  cases a with
  | notANumber => simp [UnpackedFloat.compare] at h
  | infinity s =>
    obtain rfl : s = .positive := ha
    cases b with
    | infinity t =>
      obtain rfl : t = .positive := hb
      simp
    | _ => simp [UnpackedFloat.compare] at h
  | zero s =>
    obtain rfl : s = .positive := ha
    cases b with
    | zero t =>
      obtain rfl : t = .positive := hb
      simp
    | infinity t =>
      obtain rfl : t = .positive := hb
      simp [UnpackedFloat.compare] at h
    | finite t m e hm =>
      obtain rfl : t = .positive := hb
      simp [UnpackedFloat.compare] at h
    | notANumber => simp [UnpackedFloat.compare] at h
  | finite s m e hm =>
    obtain rfl : s = .positive := ha
    cases b with
    | finite t n f hn =>
      obtain rfl : t = .positive := hb
      simp only [UnpackedFloat.compare, Option.some.injEq, Ordering.then_eq_eq] at h
      obtain rfl := Int.compare_eq_eq.mp h.1
      obtain rfl := Nat.compare_eq_eq.mp h.2
      simp
    | infinity t =>
      obtain rfl : t = .positive := hb
      simp [UnpackedFloat.compare] at h
    | zero t => simp [UnpackedFloat.compare] at h
    | notANumber => simp [UnpackedFloat.compare] at h

/-! ### Costs -/

/-- The sign of a number, which is 1 for a minus. -/
def signOf (x : Float) : BitVec 1 := @unpackSign Format.binary64 x.toModel.toBits.toBitVec

/-- The cost has no minus sign. -/
def Unsigned (x : Float) : Prop := signOf x = 0#1

variable {x y : Float}

theorem Unsigned.positive (h : Unsigned x) : Positive x.toModel.unpack := by
  have hsign : @unpackSign Format.binary64 x.toModel.toBits.toBitVec = 0#1 := h
  unfold Float.Model.unpack UnpackedFloat.unpack
  dsimp only
  rw [hsign]
  split_ifs <;> trivial

theorem unsigned_of_add {a b : UnpackedFloat}
    (h : Positive (UnpackedFloat.add Format.binary64 a b)) :
    Unsigned ⟨Float.Model.pack (UnpackedFloat.add Format.binary64 a b)⟩ :=
  unpackSign_pack h

theorem Unsigned.add (hx : Unsigned x) (hy : Unsigned y) : Unsigned (x + y) :=
  unsigned_of_add (positive_add _ hx.positive hy.positive)

theorem unpack_negativeZero : (-0.0 : Float).toModel.unpack = .zero .negative := by
  rfl

/-- Sums start at negative zero. -/
theorem Unsigned.negativeZero_add (hx : Unsigned x) : Unsigned (-0.0 + x) := by
  have h := positive_zero_add Format.binary64 .negative hx.positive
  rw [← unpack_negativeZero] at h
  exact unsigned_of_add h

theorem beq_iff : (x == y) = true ↔ x.toModel.unpack.compare y.toModel.unpack = some .eq := by
  change (x.toModel.unpack.compare y.toModel.unpack == some .eq) = true ↔ _
  exact beq_iff_eq

theorem lt_iff : x < y ↔ x.toModel.unpack.compare y.toModel.unpack = some .lt := by
  change decide ((x.toModel.unpack.compare y.toModel.unpack == some .lt) = true) = true ↔ _
  rw [decide_eq_true_eq]
  exact beq_iff_eq

theorem eq_of_bits (h : x.toModel.toBits.toBitVec = y.toModel.toBits.toBitVec) : x = y := by
  obtain ⟨⟨xbits, hxvalid⟩⟩ := x
  obtain ⟨⟨ybits, hyvalid⟩⟩ := y
  obtain rfl : xbits = ybits := UInt64.toBitVec_inj.mp h
  rfl

/-- Numbers without a minus sign that compare equal are the same. -/
theorem eq_of_beq (hx : Unsigned x) (hy : Unsigned y) (h : (x == y) = true) : x = y := by
  obtain ⟨heq, hne⟩ := eq_of_compare hx.positive hy.positive (beq_iff.mp h)
  exact eq_of_bits (unpack_inj hx hy hne heq)

/-- The only number with a minus sign that is no less than zero is negative zero. -/
theorem unsigned_of_le (h : 0 ≤ x) (hne : x ≠ -0.0) : Unsigned x := by
  have hle : ((UnpackedFloat.zero .positive).compare x.toModel.unpack).any (·.isLE) = true :=
    of_decide_eq_true h
  by_contra hsign
  have hminus : @unpackSign Format.binary64 x.toModel.toBits.toBitVec = 1#1 := by
    have hcases : ∀ v : BitVec 1, v ≠ 0#1 → v = 1#1 := by decide
    exact hcases _ hsign
  unfold Float.Model.unpack UnpackedFloat.unpack at hle
  dsimp only at hle
  rw [hminus] at hle
  have hnegative : Sign.ofBitVec 1#1 = .negative := rfl
  rw [hnegative] at hle
  split_ifs at hle
  · simp [UnpackedFloat.compare] at hle
  · simp [UnpackedFloat.compare] at hle
  next _ hexponent hmantissa =>
    refine absurd (eq_of_bits (ext_components ?_ ?_ ?_)) hne
    · exact hminus.trans rfl
    · exact hexponent.trans rfl
    · exact hmantissa.trans rfl
  · simp [UnpackedFloat.compare] at hle
  · simp [UnpackedFloat.compare] at hle

end QueryGrammar.Cost
