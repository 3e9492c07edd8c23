import Mathlib
import QueryGrammar.Proofs.Semantic.Cost
/-!
How sums are rounded. A number without a minus sign is a whole number of steps of `2 ^ (-1074)`, or
it is infinite. The sum of two of them is the sum of the steps, settled on the nearest number that a
mantissa of 53 bits can hold. Settling is monotone and keeps what a mantissa can hold already.
-/
namespace QueryGrammar.Cost

open Float.Model UnpackedFloat

/-! ### Dropping bits -/

/-- The mantissa with its two residual bits as one number. -/
def code (em : ExtendedMantissa) : ℕ :=
  4 * em.mantissa + 2 * em.roundBit.toNat + em.stickyBit.toNat

theorem toNat_odd (m : ℕ) : (m % 2 != 0).toNat = m % 2 := by
  rcases Nat.mod_two_eq_zero_or_one m with h | h <;> simp [h]

theorem code_shiftRightOne {em en : ExtendedMantissa} (h : code em ≤ code en) :
    code em.shiftRightOne ≤ code en.shiftRightOne := by
  obtain ⟨m, r, s⟩ := em
  obtain ⟨n, t, u⟩ := en
  simp only [code, ExtendedMantissa.shiftRightOne, toNat_odd] at h ⊢
  cases r <;> cases s <;> cases t <;> cases u <;>
    simp only [Bool.toNat_true, Bool.toNat_false, Bool.or_true, Bool.or_false] at h ⊢ <;> omega

theorem code_shiftRight {em en : ExtendedMantissa} (h : code em ≤ code en) (k : ℕ) :
    code (em >>> k) ≤ code (en >>> k) := by
  induction k with
  | zero => exact h
  | succ k ih => exact code_shiftRightOne ih

theorem roundedMantissa_mono {em en : ExtendedMantissa} (h : code em ≤ code en) :
    em.roundedMantissa ≤ en.roundedMantissa := by
  obtain ⟨m, r, s⟩ := em
  obtain ⟨n, t, u⟩ := en
  cases r <;> cases s <;> cases t <;> cases u <;>
    simp only [code, Bool.toNat_true, Bool.toNat_false, ExtendedMantissa.roundedMantissa,
      ExtendedMantissa.accuracy, Accuracy.roundToNearestEven] at h ⊢ <;> omega

/-- A number without its last `k` bits, rounded to the nearest and to even between two. -/
def dropBits (k m : ℕ) : ℕ :=
  (ExtendedMantissa.ofMantissaAndAccuracy m .exact >>> k).roundedMantissa

theorem dropBits_mono (k : ℕ) {m n : ℕ} (h : m ≤ n) : dropBits k m ≤ dropBits k n := by
  apply roundedMantissa_mono
  apply code_shiftRight
  simp only [code, ExtendedMantissa.ofMantissaAndAccuracy]
  omega

theorem shiftRight_add (em : ExtendedMantissa) (j k : ℕ) : em >>> (j + k) = em >>> j >>> k := by
  induction k with
  | zero => rfl
  | succ k ih => exact congrArg ExtendedMantissa.shiftRightOne ih

theorem exact_shiftRight (k m : ℕ) :
    ExtendedMantissa.ofMantissaAndAccuracy (2 ^ k * m) .exact >>> k =
      ExtendedMantissa.ofMantissaAndAccuracy m .exact := by
  induction k generalizing m with
  | zero => simp only [Nat.pow_zero, Nat.one_mul]; rfl
  | succ k ih =>
    have hone : (ExtendedMantissa.ofMantissaAndAccuracy (2 * m) .exact).shiftRightOne =
        ExtendedMantissa.ofMantissaAndAccuracy m .exact := by
      simp [ExtendedMantissa.ofMantissaAndAccuracy, ExtendedMantissa.shiftRightOne]
    calc ExtendedMantissa.ofMantissaAndAccuracy (2 ^ (k + 1) * m) .exact >>> (k + 1)
        = (ExtendedMantissa.ofMantissaAndAccuracy (2 ^ k * (2 * m)) .exact >>> k).shiftRightOne := by
          rw [pow_succ, Nat.mul_assoc]; rfl
      _ = ExtendedMantissa.ofMantissaAndAccuracy m .exact := by rw [ih, hone]

theorem dropBits_add (k j m : ℕ) : dropBits (k + j) (2 ^ k * m) = dropBits j m := by
  rw [dropBits, shiftRight_add, exact_shiftRight]
  rfl

theorem dropBits_exact (k m : ℕ) : dropBits k (2 ^ k * m) = m :=
  dropBits_add k 0 m

/-! ### Settling -/

/-- The nearest number with 53 significant bits. -/
def settle (n : ℕ) : ℕ :=
  2 ^ (n.log2 - 52) * dropBits (n.log2 - 52) n

theorem log2_pow_mul {m : ℕ} (hm : m ≠ 0) (k : ℕ) : (2 ^ k * m).log2 = k + m.log2 := by
  rw [Nat.log2_eq_iff (by positivity), pow_succ, pow_add, Nat.mul_assoc]
  constructor
  · exact Nat.mul_le_mul_left _ (Nat.log2_self_le hm)
  · refine Nat.mul_lt_mul_of_pos_left ?_ (by positivity)
    exact pow_succ 2 m.log2 ▸ Nat.lt_log2_self

theorem settle_pow_mul {m : ℕ} (hm : m < 2 ^ 53) (k : ℕ) : settle (2 ^ k * m) = 2 ^ k * m := by
  obtain rfl | hpos := Nat.eq_zero_or_pos m
  · rfl
  have hlog : m.log2 < 53 := (Nat.log2_lt hpos.ne').mpr hm
  have hk : (2 ^ k * m).log2 - 52 ≤ k := by rw [log2_pow_mul hpos.ne']; omega
  have hsplit : 2 ^ k * m = 2 ^ ((2 ^ k * m).log2 - 52) * (2 ^ (k - ((2 ^ k * m).log2 - 52)) * m) := by
    rw [← Nat.mul_assoc, ← pow_add, Nat.add_sub_cancel' hk]
  rw [settle]
  conv_lhs => arg 2; arg 2; rw [hsplit]
  rw [dropBits_exact, ← hsplit]

/-- Dropping all but 53 bits leaves 53 bits, or the least number with one more. -/
theorem dropBits_bounds {n : ℕ} (hn : 52 ≤ n.log2) :
    2 ^ 52 ≤ dropBits (n.log2 - 52) n ∧ dropBits (n.log2 - 52) n ≤ 2 ^ 53 := by
  have hne : n ≠ 0 := by rintro rfl; simp at hn
  have hlow : 2 ^ (n.log2 - 52) * 2 ^ 52 ≤ n := by
    rw [← pow_add, Nat.sub_add_cancel hn]
    exact Nat.log2_self_le hne
  have hhigh : n ≤ 2 ^ (n.log2 - 52) * 2 ^ 53 := by
    rw [← pow_add, show n.log2 - 52 + 53 = n.log2 + 1 by omega]
    exact Nat.lt_log2_self.le
  constructor
  · simpa only [dropBits_exact] using dropBits_mono (n.log2 - 52) hlow
  · simpa only [dropBits_exact] using dropBits_mono (n.log2 - 52) hhigh

theorem settle_of_log2_lt {n : ℕ} (hn : n.log2 < 52) : settle n = n := by
  rw [settle, Nat.sub_eq_zero_of_le hn.le, Nat.pow_zero, Nat.one_mul]
  simpa using dropBits_exact 0 n

theorem settle_bounds {n : ℕ} (hn : n ≠ 0) :
    2 ^ n.log2 ≤ settle n ∧ settle n ≤ 2 ^ (n.log2 + 1) := by
  by_cases hlog : n.log2 < 52
  · rw [settle_of_log2_lt hlog]
    exact ⟨Nat.log2_self_le hn, Nat.lt_log2_self.le⟩
  · have hle : 52 ≤ n.log2 := by omega
    obtain ⟨hlow, hhigh⟩ := dropBits_bounds hle
    constructor
    · calc 2 ^ n.log2 = 2 ^ (n.log2 - 52) * 2 ^ 52 := by rw [← pow_add, Nat.sub_add_cancel hle]
        _ ≤ settle n := Nat.mul_le_mul_left _ hlow
    · calc settle n ≤ 2 ^ (n.log2 - 52) * 2 ^ 53 := Nat.mul_le_mul_left _ hhigh
        _ = 2 ^ (n.log2 + 1) := by rw [← pow_add, show n.log2 - 52 + 53 = n.log2 + 1 by omega]

theorem log2_mono {m n : ℕ} (h : m ≤ n) : m.log2 ≤ n.log2 := by
  obtain rfl | hm := Nat.eq_zero_or_pos m
  · simp
  · exact (Nat.le_log2 (by omega)).mpr ((Nat.log2_self_le hm.ne').trans h)

/-- Among numbers of one length the same bits are dropped; between lengths lies a power of two. -/
theorem settle_mono {m n : ℕ} (h : m ≤ n) : settle m ≤ settle n := by
  obtain rfl | hm := Nat.eq_zero_or_pos m
  · exact Nat.zero_le _
  rcases (log2_mono h).eq_or_lt with heq | hlt
  · rw [settle, settle, heq]
    exact Nat.mul_le_mul_left _ (dropBits_mono _ h)
  · calc settle m ≤ 2 ^ (m.log2 + 1) := (settle_bounds hm.ne').2
      _ ≤ 2 ^ n.log2 := Nat.pow_le_pow_right (by decide) hlt
      _ ≤ settle n := (settle_bounds (by omega)).1

/-! ### Rounding to the format -/

/-- A mantissa of 53 bits, or a shorter one with the least exponent. -/
structure Canonical (m : ℕ) (e : ℤ) : Prop where
  lt : m < 2 ^ 53
  le : -1074 ≤ e
  full : 2 ^ 52 ≤ m ∨ e = -1074

/-- How many steps a mantissa with an exponent stands for. -/
def steps (m : ℕ) (e : ℤ) : ℕ :=
  2 ^ (e + 1074).toNat * m

theorem targetExponent_eq {m : ℕ} (hm : 0 < m) {e : ℤ} (he : -1074 ≤ e) :
    Format.binary64.targetExponent (totalExponent m e) =
      (((steps m e).log2 - 52 : ℕ) : ℤ) - 1074 := by
  have hmin : Format.binary64.minExponent = -1074 := by decide
  have hbits : (Format.binary64.mantissaBits : ℤ) = 53 := by decide
  rw [Format.targetExponent, hmin, hbits, steps, log2_pow_mul hm.ne', totalExponent]
  omega

theorem shiftToExponent_eq {m : ℕ} {e t : ℤ} (h : e ≤ t) :
    shiftToExponent m e .exact t =
      (ExtendedMantissa.ofMantissaAndAccuracy m .exact >>> (t - e).toNat, t) := by
  simp only [shiftToExponent, Prod.mk.injEq, true_and]
  omega

/-- After rounding at most one bit is too many, and that bit is dropped without loss. -/
theorem shift_rounded {r k : ℕ} (hpos : 0 < r) (hle : r ≤ 2 ^ 53) (hfull : 2 ^ 52 ≤ r ∨ k = 0) :
    ∃ m e, shiftToTargetExponent .binary64 r ((k : ℤ) - 1074) .exact =
        (ExtendedMantissa.ofMantissaAndAccuracy m .exact, e) ∧
      0 < m ∧ Canonical m e ∧ steps m e = 2 ^ k * r := by
  have htarget := targetExponent_eq hpos (e := (k : ℤ) - 1074) (by omega)
  have hlog : (steps r ((k : ℤ) - 1074)).log2 = k + r.log2 := by
    rw [steps, log2_pow_mul hpos.ne']
    omega
  rw [hlog] at htarget
  rcases hle.eq_or_lt with heq | hlt
  · have hdouble : r = 2 ^ 1 * 2 ^ 52 := heq.trans (by norm_num)
    refine ⟨2 ^ 52, (k + 1 : ℕ) - 1074, ?_, by decide, ⟨by decide, by omega, .inl le_rfl⟩, ?_⟩
    · have hlog53 : r.log2 = 53 := by rw [heq]; exact Nat.log2_two_pow
      rw [shiftToTargetExponent, htarget, hlog53,
        show k + 53 - 52 = k + 1 by omega, shiftToExponent_eq (by omega), hdouble,
        show (((k + 1 : ℕ) : ℤ) - 1074 - ((k : ℤ) - 1074)).toNat = 1 by omega, exact_shiftRight]
    · rw [steps, show (((k + 1 : ℕ) : ℤ) - 1074 + 1074).toNat = k + 1 by omega, hdouble, pow_add,
        Nat.mul_assoc]
  · refine ⟨r, (k : ℤ) - 1074, ?_, hpos, ⟨hlt, by omega, ?_⟩, ?_⟩
    · have hlog53 : r.log2 < 53 := (Nat.log2_lt hpos.ne').mpr hlt
      have hsame : (((k + r.log2 - 52 : ℕ) : ℤ) - 1074 - ((k : ℤ) - 1074)).toNat = 0 := by omega
      rw [shiftToTargetExponent, htarget, shiftToExponent]
      simp only [hsame]
      exact congrArg (_, ·) (by omega)
    · rcases hfull with hfull | rfl
      · exact .inl hfull
      · exact .inr (by simp)
    · rw [steps, show ((k : ℤ) - 1074 + 1074).toNat = k by omega]

theorem roundWithAccuracy_eq {m m' : ℕ} {e e' t : ℤ} {em : ExtendedMantissa}
    (hfirst : shiftToTargetExponent .binary64 m e .exact = (em, t))
    (hsecond : shiftToTargetExponent .binary64 em.roundedMantissa t .exact =
      (ExtendedMantissa.ofMantissaAndAccuracy m' .exact, e')) (hpos : 0 < m') :
    roundWithAccuracy .binary64 .positive m e .exact = .finite .positive m' e' hpos := by
  rw [roundWithAccuracy, hfirst]
  dsimp only
  rw [hsecond]
  exact dif_neg hpos.ne'

theorem dropBits_steps {m j k : ℕ} {e : ℤ} (h : k = (e + 1074).toNat + j) :
    dropBits k (steps m e) = dropBits j m := by
  rw [h, steps, dropBits_add]

theorem exists_roundWithAccuracy {m : ℕ} (hm : 0 < m) {e : ℤ} (he : -1074 ≤ e)
    (hle : e ≤ Format.binary64.targetExponent (totalExponent m e)) :
    ∃ m' e' h, roundWithAccuracy .binary64 .positive m e .exact = .finite .positive m' e' h ∧
      Canonical m' e' ∧ steps m' e' = settle (steps m e) := by
  have hne : steps m e ≠ 0 := by unfold steps; positivity
  have htarget := targetExponent_eq hm he
  -- What is dropped of the mantissa is what is dropped of the steps.
  have hdrop : dropBits (Format.binary64.targetExponent (totalExponent m e) - e).toNat m =
      dropBits ((steps m e).log2 - 52) (steps m e) := by
    rw [htarget] at hle ⊢
    exact (dropBits_steps (by omega)).symm
  have hrounded : 0 < dropBits ((steps m e).log2 - 52) (steps m e) ∧
      dropBits ((steps m e).log2 - 52) (steps m e) ≤ 2 ^ 53 ∧
      (2 ^ 52 ≤ dropBits ((steps m e).log2 - 52) (steps m e) ∨ (steps m e).log2 - 52 = 0) := by
    by_cases hlog : (steps m e).log2 < 52
    · have hzero : (steps m e).log2 - 52 = 0 := by omega
      have hsame := settle_of_log2_lt hlog
      rw [settle, hzero, Nat.pow_zero, Nat.one_mul] at hsame
      rw [hzero, hsame]
      refine ⟨Nat.pos_of_ne_zero hne, ?_, .inr rfl⟩
      exact ((Nat.log2_lt hne).mp (by omega)).le
    · obtain ⟨hlow, hhigh⟩ := dropBits_bounds (n := steps m e) (by omega)
      exact ⟨(by decide : 0 < 2 ^ 52).trans_le hlow, hhigh, .inl hlow⟩
  obtain ⟨m', e', hshift, hpos, hcanonical, hsteps⟩ :=
    shift_rounded hrounded.1 hrounded.2.1 hrounded.2.2
  refine ⟨m', e', hpos, ?_, hcanonical, hsteps⟩
  refine roundWithAccuracy_eq (shiftToExponent_eq hle) ?_ hpos
  rw [show ExtendedMantissa.roundedMantissa _ = _ from hdrop, htarget, hshift]

theorem decreaseExponent_eq {m : ℕ} (hm : 0 < m) {e t : ℤ} (he : -1074 ≤ e) (ht : -1074 ≤ t) :
    ∃ m', decreaseExponent m e t = (m', min e t) ∧ 0 < m' ∧ steps m' (min e t) = steps m e := by
  refine ⟨2 ^ (e - t).toNat * m, ?_, by positivity, ?_⟩
  · rw [decreaseExponent, Nat.shiftLeft_eq, Nat.mul_comm]
    exact congrArg (_, ·) (by omega)
  · rw [steps, steps, ← Nat.mul_assoc, ← pow_add,
      show (min e t + 1074).toNat + (e - t).toNat = (e + 1074).toNat by omega]

theorem exists_round {m : ℕ} (hm : 0 < m) {e : ℤ} (he : -1074 ≤ e) :
    ∃ m' e' h, UnpackedFloat.round .binary64 .positive m e = .finite .positive m' e' h ∧
      Canonical m' e' ∧ steps m' e' = settle (steps m e) := by
  have htarget := targetExponent_eq hm he
  obtain ⟨m', heq, hm', hsteps⟩ := decreaseExponent_eq hm he
    (t := Format.binary64.targetExponent (totalExponent m e)) (by omega)
  rw [UnpackedFloat.round]
  dsimp only
  rw [heq, ← hsteps]
  refine exists_roundWithAccuracy hm' (by omega) ?_
  rw [targetExponent_eq hm' (by omega), hsteps]
  omega

/-! ### Amounts -/

/-- What a sum holds: a number that is not negative, with a mantissa that fits. -/
def Held : UnpackedFloat → Prop
  | .infinity s => s = .positive
  | .notANumber => False
  | .zero _ => True
  | .finite s m e _ => s = .positive ∧ Canonical m e

def amountOf : UnpackedFloat → ℕ∞
  | .zero _ => 0
  | .finite _ m e _ => steps m e
  | _ => ⊤

/-- Settling of amounts; what is infinite stays so. -/
def settled (n : ℕ∞) : ℕ∞ :=
  n.map settle

theorem settled_coe (n : ℕ) : settled n = settle n :=
  rfl

theorem settled_mono {m n : ℕ∞} (h : m ≤ n) : settled m ≤ settled n :=
  ENat.monotone_map_iff.mpr (fun _ _ => settle_mono) h

theorem held_add_finite {m n : ℕ} {e f : ℤ} (hm : 0 < m) (hn : 0 < n) (he : -1074 ≤ e)
    (hf : -1074 ≤ f) :
    Held (UnpackedFloat.add .binary64 (.finite .positive m e hm) (.finite .positive n f hn)) ∧
      amountOf (UnpackedFloat.add .binary64 (.finite .positive m e hm) (.finite .positive n f hn)) =
        settle (steps m e + steps n f) := by
  obtain ⟨m', hleft, hm', hsteps⟩ := decreaseExponent_eq hm he (t := min e f) (by omega)
  obtain ⟨n', hright, hn', hsteps'⟩ := decreaseExponent_eq hn hf (t := min e f) (by omega)
  rw [show min e (min e f) = min e f by omega] at hleft hsteps
  rw [show min f (min e f) = min e f by omega] at hright hsteps'
  obtain ⟨k, g, hk, hround, hcanonical, hsum⟩ :=
    exists_round (m := m' + n') (e := min e f) (by omega) (by omega)
  have hadd : UnpackedFloat.add .binary64 (.finite .positive m e hm) (.finite .positive n f hn) =
      .finite .positive k g hk := by
    rw [UnpackedFloat.add]
    dsimp only
    rw [hleft, hright]
    dsimp only [Sign.apply]
    rw [UnpackedFloat.normalize, show compare ((m' : ℤ) + n') 0 = .gt from Int.compare_eq_gt.mpr (by omega)]
    exact hround
  rw [hadd, ← hsteps, ← hsteps', show steps m' (min e f) + steps n' (min e f) =
    steps (m' + n') (min e f) from (Nat.mul_add _ _ _).symm, ← hsum]
  exact ⟨⟨rfl, hcanonical⟩, rfl⟩

theorem settle_steps {m : ℕ} {e : ℤ} (h : Canonical m e) : settle (steps m e) = steps m e :=
  settle_pow_mul h.lt _

theorem held_add {a b : UnpackedFloat} (ha : Held a) (hb : Held b) :
    Held (UnpackedFloat.add .binary64 a b) ∧
      amountOf (UnpackedFloat.add .binary64 a b) = settled (amountOf a + amountOf b) := by
  cases a with
  | notANumber => exact ha.elim
  | infinity s =>
    obtain rfl : s = .positive := ha
    cases b with
    | notANumber => exact hb.elim
    | infinity t =>
      obtain rfl : t = .positive := hb
      exact ⟨rfl, rfl⟩
    | _ => exact ⟨rfl, rfl⟩
  | zero s =>
    cases b with
    | notANumber => exact hb.elim
    | infinity t => exact ⟨hb, rfl⟩
    | zero t => cases s <;> cases t <;> exact ⟨trivial, rfl⟩
    | finite t n f hn =>
      refine ⟨hb, ?_⟩
      change ((steps n f : ℕ) : ℕ∞) = settled (0 + (steps n f : ℕ))
      rw [zero_add, settled_coe, settle_steps hb.2]
  | finite s m e hm =>
    obtain ⟨rfl, hcanonical⟩ : s = .positive ∧ Canonical m e := ha
    cases b with
    | notANumber => exact hb.elim
    | infinity t => exact ⟨hb, rfl⟩
    | zero t =>
      refine ⟨⟨rfl, hcanonical⟩, ?_⟩
      change ((steps m e : ℕ) : ℕ∞) = settled ((steps m e : ℕ) + 0)
      rw [add_zero, settled_coe, settle_steps hcanonical]
    | finite t n f hn =>
      obtain ⟨rfl, hcanonical'⟩ : t = .positive ∧ Canonical n f := hb
      exact held_add_finite hm hn hcanonical.le hcanonical'.le

/-! ### Overflow -/

/-- How far the mantissa of the largest numbers is shifted. -/
@[irreducible]
def maxShift : ℕ := 2045

/-- The least amount that is infinite: `2 ^ 1024`. -/
def limit : ℕ :=
  2 ^ maxShift * 2 ^ 53

theorem limit_pos : 0 < limit := by
  unfold limit
  positivity

noncomputable def capped (n : ℕ∞) : ℕ∞ :=
  if n < limit then n else ⊤

theorem capped_mono {m n : ℕ∞} (h : m ≤ n) : capped m ≤ capped n := by
  unfold capped
  split_ifs with hm hn hn
  · exact h
  · exact le_top
  · exact absurd (h.trans_lt hn) hm
  · exact le_rfl

theorem steps_lt_iff {m : ℕ} {e : ℤ} (h : Canonical m e) (k : ℕ) :
    steps m e < 2 ^ k * 2 ^ 53 ↔ e + 1074 ≤ k := by
  constructor
  · intro hlt
    by_contra hle
    have hm : 2 ^ 52 ≤ m := h.full.resolve_right (by omega)
    refine absurd hlt (not_lt.mpr ?_)
    calc 2 ^ k * 2 ^ 53 = 2 ^ (k + 1) * 2 ^ 52 := by ring
      _ ≤ 2 ^ (e + 1074).toNat * m :=
        Nat.mul_le_mul (Nat.pow_le_pow_right (by decide) (by omega)) hm
  · intro hle
    calc steps m e < 2 ^ (e + 1074).toNat * 2 ^ 53 := by
          rw [steps]
          exact Nat.mul_lt_mul_of_pos_left h.lt (by positivity)
      _ ≤ 2 ^ k * 2 ^ 53 := Nat.mul_le_mul_right _ (Nat.pow_le_pow_right (by decide) (by omega))

theorem steps_lt_limit_iff {m : ℕ} {e : ℤ} (h : Canonical m e) : steps m e < limit ↔ e ≤ 971 := by
  have hiff := steps_lt_iff h maxShift
  have hshift : maxShift = 2045 := by rw [maxShift]
  exact hiff.trans (by omega)

theorem unpack_packedInfinity :
    UnpackedFloat.unpack .binary64 (packedInfinity .binary64 .positive) = .infinity .positive := by
  rfl

theorem unpack_packComponents_zero {m : BitVec 52} (hm : m ≠ 0#52) :
    UnpackedFloat.unpack .binary64 (packComponents .binary64 .positive 0#11 m) =
      .finite .positive m.toNat (-1074) (Nat.pos_of_ne_zero (by simpa [BitVec.toNat_eq] using hm)) := by
  unfold UnpackedFloat.unpack
  simp only [unpackExponent_packComponents, unpackMantissa_packComponents, unpackSign_packComponents]
  rw [if_neg (by decide), if_pos trivial, dif_neg hm]
  rfl

theorem unpack_packComponents {k : BitVec 11} {m : BitVec 52} (hk : k ≠ 0#11) (hk' : k ≠ -1#11) :
    UnpackedFloat.unpack .binary64 (packComponents .binary64 .positive k m) =
      .finite .positive (2 ^ 52 + m.toNat) (k.toNat - 1075) (by positivity) := by
  unfold UnpackedFloat.unpack
  simp only [unpackExponent_packComponents, unpackMantissa_packComponents, unpackSign_packComponents]
  rw [if_neg hk', if_neg hk]
  simp only [toNat_implicit]
  rfl

theorem biased_eq (e : ℤ) :
    e + Format.binary64.exponentBias + Format.binary64.mantissaBitsWithoutImplicit = e + 1075 := by
  have hbias : (Format.binary64.exponentBias : ℤ) = 1023 := rfl
  have hbits : (Format.binary64.mantissaBitsWithoutImplicit : ℤ) = 52 := rfl
  rw [hbias, hbits]
  omega

theorem pack_of_large {m : ℕ} {e : ℤ} (hm : 0 < m) (he : 971 < e) :
    UnpackedFloat.pack .binary64 (.finite .positive m e hm) = packedInfinity .binary64 .positive := by
  rw [UnpackedFloat.pack]
  dsimp only
  rw [biased_eq, if_pos (by norm_num; omega)]

theorem unpack_pack {m : ℕ} {e : ℤ} (hm : 0 < m) (h : Canonical m e) (he : e ≤ 971) :
    UnpackedFloat.unpack .binary64 (UnpackedFloat.pack .binary64 (.finite .positive m e hm)) =
      .finite .positive m e hm := by
  have hlow := h.le
  have hlt := h.lt
  rw [UnpackedFloat.pack]
  dsimp only
  rw [biased_eq, if_neg (by norm_num; omega)]
  by_cases hfull : 2 ^ 52 ≤ m
  · have hlog : m.log2 + 1 = Format.binary64.mantissaBits := by
      have : m.log2 = 52 := (Nat.log2_eq_iff hm.ne').mpr ⟨hfull, hlt⟩
      rw [this]
      rfl
    have hbits : (BitVec.ofNat 11 (e + 1075).toNat).toNat = (e + 1075).toNat := by
      rw [BitVec.toNat_ofNat, Nat.mod_eq_of_lt (by omega)]
    have hmantissa : (BitVec.ofNat 52 m).toNat = m - 2 ^ 52 := by
      rw [BitVec.toNat_ofNat]
      omega
    rw [if_pos hlog, unpack_packComponents]
    · simp only [hbits, hmantissa, finite.injEq, true_and]
      omega
    · rw [ne_eq, BitVec.toNat_eq, hbits]
      simp
      omega
    · rw [ne_eq, BitVec.toNat_eq, hbits]
      simp
      omega
  · obtain rfl : e = -1074 := h.full.resolve_left hfull
    have hlog : m.log2 + 1 ≠ Format.binary64.mantissaBits := by
      have : m.log2 < 52 := (Nat.log2_lt hm.ne').mpr (by omega)
      have hbits : Format.binary64.mantissaBits = 53 := rfl
      omega
    have hmantissa : (BitVec.ofNat 52 m).toNat = m := by
      rw [BitVec.toNat_ofNat]
      omega
    rw [if_neg hlog, unpack_packComponents_zero]
    · simp only [hmantissa]
    · rw [ne_eq, BitVec.toNat_eq, hmantissa]
      exact hm.ne'

/-- Packing takes large amounts to infinity and keeps all others. -/
theorem held_unpack_pack {a : UnpackedFloat} (ha : Held a) :
    Held (UnpackedFloat.unpack .binary64 (UnpackedFloat.pack .binary64 a)) ∧
      amountOf (UnpackedFloat.unpack .binary64 (UnpackedFloat.pack .binary64 a)) =
        capped (amountOf a) := by
  cases a with
  | notANumber => exact ha.elim
  | infinity s =>
    obtain rfl : s = .positive := ha
    refine ⟨rfl, ?_⟩
    rw [UnpackedFloat.pack, unpack_packedInfinity]
    exact (if_neg not_top_lt).symm
  | zero s =>
    rw [UnpackedFloat.pack, unpack_packedZero, capped, if_pos]
    · exact ⟨trivial, rfl⟩
    · exact Nat.cast_pos.mpr limit_pos
  | finite s m e hm =>
    obtain ⟨rfl, hcanonical⟩ : s = .positive ∧ Canonical m e := ha
    by_cases he : e ≤ 971
    · rw [unpack_pack hm hcanonical he, capped, if_pos]
      · exact ⟨⟨rfl, hcanonical⟩, rfl⟩
      · exact Nat.cast_lt.mpr ((steps_lt_limit_iff hcanonical).mpr he)
    · rw [pack_of_large hm (by omega), unpack_packedInfinity, capped, if_neg]
      · exact ⟨rfl, rfl⟩
      · exact fun hlt => he ((steps_lt_limit_iff hcanonical).mp (Nat.cast_lt.mp hlt))

/-! ### Numbers -/

/-- A number that is not negative; both zeros and infinity are such. -/
def Nonnegative (x : Float) : Prop :=
  0 ≤ x

/-- How many steps a number is. -/
def amount (x : Float) : ℕ∞ :=
  amountOf x.toModel.unpack

variable {x y z : Float}

theorem canonical_of_unpack {b : BitVec Format.binary64.numBits} {s : Sign} {m : ℕ} {e : ℤ}
    {hm : 0 < m} (h : UnpackedFloat.unpack .binary64 b = .finite s m e hm) :
    Canonical m e ∧ e ≤ 971 := by
  have hmantissa : (unpackMantissa b).toNat < 2 ^ 52 := (unpackMantissa b).isLt
  have hexponent : (unpackExponent b).toNat < 2 ^ 11 := (unpackExponent b).isLt
  have hbias : (Format.binary64.exponentBias : ℤ) = 1023 := rfl
  have hbits : (Format.binary64.mantissaBitsWithoutImplicit : ℤ) = 52 := rfl
  unfold UnpackedFloat.unpack at h
  dsimp only at h
  rw [hbias] at h
  split_ifs at h with hones _ hzero hnone
  · obtain ⟨-, rfl, rfl⟩ := finite.injEq .. ▸ h
    have he : (unpackExponent b).toNat = 0 := by rw [hzero]; rfl
    exact ⟨⟨by omega, by omega, .inr (by omega)⟩, by omega⟩
  · obtain ⟨-, rfl, rfl⟩ := finite.injEq .. ▸ h
    rw [BitVec.toNat_eq] at hones hzero
    rw [toNat_implicit]
    have hpos : (unpackExponent b).toNat ≠ 0 := hzero
    have hmax : (unpackExponent b).toNat ≠ 2047 := hones
    exact ⟨⟨by omega, by omega, .inl (by omega)⟩, by omega⟩

theorem le_iff : x ≤ y ↔ (x.toModel.unpack.compare y.toModel.unpack).any (·.isLE) = true := by
  change decide ((x.toModel.unpack.compare y.toModel.unpack).any (·.isLE) = true) = true ↔ _
  rw [decide_eq_true_eq]

theorem held_iff : Held x.toModel.unpack ↔ Nonnegative x := by
  have hzero : (0 : Float).toModel.unpack = .zero .positive := rfl
  rw [Nonnegative, le_iff, hzero]
  cases hx : x.toModel.unpack with
  | notANumber => simp [Held, UnpackedFloat.compare]
  | infinity s => cases s <;> simp [Held, UnpackedFloat.compare]
  | zero s => simp [Held, UnpackedFloat.compare]
  | finite s m e hm =>
    have hcanonical := (canonical_of_unpack hx).1
    cases s <;> simp [Held, UnpackedFloat.compare, hcanonical]

theorem Nonnegative.held (h : Nonnegative x) : Held x.toModel.unpack :=
  held_iff.mpr h

theorem amount_lt_limit {s : Sign} {m : ℕ} {e : ℤ} {hm : 0 < m}
    (h : x.toModel.unpack = .finite s m e hm) : steps m e < limit :=
  (steps_lt_limit_iff (canonical_of_unpack h).1).mpr (canonical_of_unpack h).2

/-- A number is rounded to itself. -/
theorem capped_settled_amount (hx : Nonnegative x) : capped (settled (amount x)) = amount x := by
  have hheld := hx.held
  unfold amount
  cases h : x.toModel.unpack with
  | notANumber => rw [h] at hheld; exact hheld.elim
  | infinity s => exact if_neg not_top_lt
  | zero s => exact if_pos (Nat.cast_pos.mpr limit_pos)
  | finite s m e hm =>
    change capped (settled (steps m e : ℕ)) = (steps m e : ℕ)
    rw [settled_coe, settle_steps (canonical_of_unpack h).1, capped, if_pos]
    exact Nat.cast_lt.mpr (amount_lt_limit h)

theorem nonnegative_add_and_amount (hx : Nonnegative x) (hy : Nonnegative y) :
    Nonnegative (x + y) ∧ amount (x + y) = capped (settled (amount x + amount y)) := by
  obtain ⟨hheld, hamount⟩ := held_add hx.held hy.held
  obtain ⟨hpacked, hcapped⟩ := held_unpack_pack hheld
  rw [hamount] at hcapped
  exact ⟨held_iff.mp hpacked, hcapped⟩

theorem Nonnegative.add (hx : Nonnegative x) (hy : Nonnegative y) : Nonnegative (x + y) :=
  (nonnegative_add_and_amount hx hy).1

theorem amount_add (hx : Nonnegative x) (hy : Nonnegative y) :
    amount (x + y) = capped (settled (amount x + amount y)) :=
  (nonnegative_add_and_amount hx hy).2

theorem amount_le_add_left (hx : Nonnegative x) (hy : Nonnegative y) :
    amount x ≤ amount (x + y) := by
  rw [← capped_settled_amount hx, amount_add hx hy]
  exact capped_mono (settled_mono le_self_add)

theorem amount_le_add_right (hx : Nonnegative x) (hy : Nonnegative y) :
    amount y ≤ amount (x + y) := by
  rw [← capped_settled_amount hy, amount_add hx hy]
  exact capped_mono (settled_mono le_add_self)

theorem amount_add_mono {x' y' : Float} (hx : Nonnegative x) (hy : Nonnegative y)
    (hx' : Nonnegative x') (hy' : Nonnegative y') (hxx : amount x ≤ amount x')
    (hyy : amount y ≤ amount y') : amount (x + y) ≤ amount (x' + y') := by
  rw [amount_add hx hy, amount_add hx' hy']
  exact capped_mono (settled_mono (add_le_add hxx hyy))

theorem nonnegative_of_isCost (h : Vocabulary.isCost x = true) : Nonnegative x := by
  obtain ⟨-, hle⟩ := Bool.and_eq_true_iff.mp h
  exact of_decide_eq_true (p := 0 ≤ x) hle

theorem nonnegative_negativeZero : Nonnegative (-0.0) :=
  held_iff.mp trivial

/-! ### Comparing amounts -/

theorem steps_lt_steps {m n : ℕ} {e f : ℤ} (h : Canonical m e) (h' : Canonical n f) (hlt : e < f) :
    steps m e < steps n f := by
  have hlow := h.le
  have hn : 2 ^ 52 ≤ n := h'.full.resolve_right (by omega)
  calc steps m e < 2 ^ (e + 1074).toNat * 2 ^ 53 := by
        rw [steps]
        exact Nat.mul_lt_mul_of_pos_left h.lt (by positivity)
    _ = 2 ^ ((e + 1074).toNat + 1) * 2 ^ 52 := by ring
    _ ≤ steps n f := Nat.mul_le_mul (Nat.pow_le_pow_right (by decide) (by omega)) hn

/-- Exponents are compared first, which is right because mantissas are full. -/
theorem compare_steps {m n : ℕ} {e f : ℤ} (h : Canonical m e) (h' : Canonical n f) :
    (compare e f).then (compare m n) = compare (steps m e : ℕ∞) (steps n f : ℕ∞) := by
  rcases lt_trichotomy e f with hlt | rfl | hlt
  · rw [compare_lt_iff_lt.mpr hlt,
      compare_lt_iff_lt.mpr (Nat.cast_lt.mpr (steps_lt_steps h h' hlt))]
    rfl
  · have hscaled : ∀ {a b : ℕ}, a < b → (steps a e : ℕ∞) < steps b e := fun hab =>
      Nat.cast_lt.mpr (Nat.mul_lt_mul_of_pos_left hab (by positivity))
    rw [compare_eq_iff_eq.mpr rfl]
    rcases lt_trichotomy m n with hmn | rfl | hmn
    · rw [compare_lt_iff_lt.mpr hmn, compare_lt_iff_lt.mpr (hscaled hmn)]
      rfl
    · rw [compare_eq_iff_eq.mpr rfl, compare_eq_iff_eq.mpr rfl]
      rfl
    · rw [compare_gt_iff_gt.mpr hmn, compare_gt_iff_gt.mpr (hscaled hmn)]
      rfl
  · rw [compare_gt_iff_gt.mpr hlt,
      compare_gt_iff_gt.mpr (Nat.cast_lt.mpr (steps_lt_steps h' h hlt))]
    rfl

theorem compare_held {a b : UnpackedFloat} (ha : Held a) (hb : Held b) :
    a.compare b = some (compare (amountOf a) (amountOf b)) := by
  cases a with
  | notANumber => exact ha.elim
  | infinity s =>
    obtain rfl : s = .positive := ha
    cases b with
    | notANumber => exact hb.elim
    | infinity t =>
      obtain rfl : t = .positive := hb
      exact congrArg some (compare_eq_iff_eq.mpr rfl).symm
    | zero t => exact congrArg some (compare_gt_iff_gt.mpr (ENat.natCast_lt_top 0)).symm
    | finite t n f hn => exact congrArg some (compare_gt_iff_gt.mpr (ENat.natCast_lt_top _)).symm
  | zero s =>
    cases b with
    | notANumber => exact hb.elim
    | infinity t =>
      obtain rfl : t = .positive := hb
      exact congrArg some (compare_lt_iff_lt.mpr (ENat.natCast_lt_top 0)).symm
    | zero t => exact congrArg some (compare_eq_iff_eq.mpr rfl).symm
    | finite t n f hn =>
      obtain rfl : t = .positive := hb.1
      have hpos : 0 < steps n f := by unfold steps; positivity
      exact congrArg some (compare_lt_iff_lt.mpr (Nat.cast_pos.mpr hpos)).symm
  | finite s m e hm =>
    obtain ⟨rfl, hcanonical⟩ : s = .positive ∧ Canonical m e := ha
    cases b with
    | notANumber => exact hb.elim
    | infinity t =>
      obtain rfl : t = .positive := hb
      exact congrArg some (compare_lt_iff_lt.mpr (ENat.natCast_lt_top _)).symm
    | zero t =>
      have hpos : 0 < steps m e := by unfold steps; positivity
      exact congrArg some (compare_gt_iff_gt.mpr (Nat.cast_pos.mpr hpos)).symm
    | finite t n f hn =>
      obtain ⟨rfl, hcanonical'⟩ : t = .positive ∧ Canonical n f := hb
      exact congrArg some (compare_steps hcanonical hcanonical')

theorem lt_iff_amount (hx : Nonnegative x) (hy : Nonnegative y) :
    x < y ↔ amount x < amount y := by
  rw [lt_iff, compare_held hx.held hy.held, Option.some_inj, compare_lt_iff_lt]
  rfl

theorem beq_iff_amount (hx : Nonnegative x) (hy : Nonnegative y) :
    (x == y) = true ↔ amount x = amount y := by
  rw [beq_iff, compare_held hx.held hy.held, Option.some_inj, compare_eq_iff_eq]
  rfl

theorem le_iff_amount (hx : Nonnegative x) (hy : Nonnegative y) :
    x ≤ y ↔ amount x ≤ amount y := by
  rw [le_iff, compare_held hx.held hy.held, Option.any_some, Ordering.isLE_iff_ne_gt]
  exact compare_le_iff_le

/-! ### Sums of many -/

theorem Nonnegative.sum {costs : List Float} (hcosts : ∀ y ∈ costs, Nonnegative y)
    (hx : Nonnegative x) : Nonnegative (costs.foldl (· + ·) x) := by
  induction costs generalizing x with
  | nil => exact hx
  | cons y costs ih =>
    exact ih (fun z hz => hcosts z (List.mem_cons_of_mem _ hz)) (hx.add (hcosts y (by simp)))

theorem amount_le_sum_start {costs : List Float} (hcosts : ∀ y ∈ costs, Nonnegative y)
    (hx : Nonnegative x) : amount x ≤ amount (costs.foldl (· + ·) x) := by
  induction costs generalizing x with
  | nil => exact le_rfl
  | cons y costs ih =>
    have hy := hcosts y (by simp)
    calc amount x ≤ amount (x + y) := amount_le_add_left hx hy
      _ ≤ amount (costs.foldl (· + ·) (x + y)) :=
        ih (fun z hz => hcosts z (List.mem_cons_of_mem _ hz)) (hx.add hy)

/-- No summand is above the sum. -/
theorem amount_le_sum {costs : List Float} (hcosts : ∀ y ∈ costs, Nonnegative y)
    (hx : Nonnegative x) (hy : y ∈ costs) : amount y ≤ amount (costs.foldl (· + ·) x) := by
  induction costs generalizing x with
  | nil => simp at hy
  | cons z costs ih =>
    have hz := hcosts z (by simp)
    have hrest := fun w hw => hcosts w (List.mem_cons_of_mem _ hw)
    rcases List.mem_cons.mp hy with rfl | hy
    · calc amount y ≤ amount (x + y) := amount_le_add_right hx hz
        _ ≤ amount (costs.foldl (· + ·) (x + y)) := amount_le_sum_start hrest (hx.add hz)
    · exact ih hrest (hx.add hz) hy

theorem amount_sum_mono {costs costs' : List Float} {x' : Float} (hcosts : ∀ y ∈ costs, Nonnegative y)
    (hcosts' : ∀ y ∈ costs', Nonnegative y) (hx : Nonnegative x) (hx' : Nonnegative x')
    (hle : amount x ≤ amount x')
    (hall : List.Forall₂ (fun y y' => amount y ≤ amount y') costs costs') :
    amount (costs.foldl (· + ·) x) ≤ amount (costs'.foldl (· + ·) x') := by
  induction hall generalizing x x' with
  | nil => exact hle
  | @cons y y' _ _ hyy _ ih =>
    have hy := hcosts y (by simp)
    have hy' := hcosts' y' (by simp)
    exact ih (fun z hz => hcosts z (List.mem_cons_of_mem _ hz))
      (fun z hz => hcosts' z (List.mem_cons_of_mem _ hz)) (hx.add hy) (hx'.add hy')
      (amount_add_mono hx hy hx' hy' hle hyy)

end QueryGrammar.Cost
