import Mathlib
import MessageKeys.Decimal.Binary

/-! # Divided counts — the double of a fraction, and the order of fractions

    A positive double has a significand of 53 bits and an exponent (`HasParts`), and doubles are
    compared by exponent, then by significand (`HasParts.lt_iff`).  A number of at most 53 bits is
    a double of its own (`hasParts_toFloat`).

    What a division shifts out of its quotient is told by two bits, and these are enough to round
    the fraction itself to the nearest whole number, a half to the even one
    (`StandsFor.roundedMantissa`).  So the quotient of two counts is their fraction, scaled into the
    range of significands and rounded there once (`Rounds`).  Rounding is monotone, and so is the
    scale: of two fractions the larger one does not become the smaller double (`Rounds.not_lt`). -/

namespace MessageKeys.Decimal

/-! ## Rounding fractions -/

/-- Rounding takes the whole part or the next number. -/
theorem roundDiv_bounds (n d : ℕ) : n / d ≤ roundDiv n d ∧ roundDiv n d ≤ n / d + 1 := by
  rw [roundDiv]
  split
  · omega
  · split
    · omega
    · split <;> omega

/-- **ROUNDING IS MONOTONE**: the larger fraction is not rounded to the smaller number. -/
theorem roundDiv_mono {n d n' d' : ℕ} (hd : 0 < d) (hd' : 0 < d') (h : n * d' ≤ n' * d) :
    roundDiv n d ≤ roundDiv n' d' := by
  obtain ⟨-, hmost⟩ := roundDiv_bounds n d
  obtain ⟨hleast, -⟩ := roundDiv_bounds n' d'
  have hwhole : n / d ≤ n' / d' := by
    refine (Nat.le_div_iff_mul_le hd').mpr (Nat.le_of_mul_le_mul_right ?_ hd)
    calc n / d * d' * d = n / d * d * d' := Nat.mul_right_comm _ _ _
      _ ≤ n * d' := Nat.mul_le_mul_right d' (Nat.div_mul_le_self n d)
      _ ≤ n' * d := h
  rcases hwhole.lt_or_eq with hlt | heq
  · exact hmost.trans (Nat.le_trans hlt hleast)
  · -- with the same whole part the rests are compared
    have hrest : n % d * d' ≤ n' % d' * d := by
      have hn := Nat.div_add_mod n d
      have hn' := Nat.div_add_mod n' d'
      rw [← hn, ← hn', heq] at h
      linarith
    have hdouble : 2 * (n % d) * d' ≤ 2 * (n' % d') * d := by linarith
    rw [roundDiv, roundDiv, ← heq]
    by_cases hbelow : 2 * (n' % d') < d'
    · have hbelow' : 2 * (n % d) < d := by
        refine Nat.lt_of_mul_lt_mul_right (a := d') (hdouble.trans_lt ?_)
        rw [Nat.mul_comm d d']
        exact Nat.mul_lt_mul_of_pos_right hbelow hd
      rw [if_pos hbelow, if_pos hbelow']
    · rw [if_neg hbelow]
      by_cases habove : d' < 2 * (n' % d')
      · rw [if_pos habove]
        split
        · omega
        · split
          · omega
          · split <;> omega
      · -- a half, and on the other side at most a half
        have hhalf : 2 * (n % d) ≤ d := by
          refine Nat.le_of_mul_le_mul_right (hdouble.trans ?_) hd'
          rw [Nat.mul_comm d d']
          exact Nat.mul_le_mul_right d (Nat.not_lt.mp habove)
        rw [if_neg habove, if_neg (Nat.not_lt.mpr hhalf)]
        split
        · split <;> omega
        · rfl

open Float.Model Float.Model.UnpackedFloat

/-! ## Shifting and rounding -/

/-- The mantissa is the whole part of the fraction, and its two bits tell whether the rest is
    nothing, less than a half, a half or more. -/
structure StandsFor (em : ExtendedMantissa) (n d : ℕ) : Prop where
  mantissa : em.mantissa = n / d
  roundBit : em.roundBit = decide (d ≤ 2 * (n % d))
  stickyBit : em.stickyBit = decide (n % d ≠ 0 ∧ 2 * (n % d) ≠ d)

/-- What a division keeps of a quotient stands for the fraction. -/
theorem standsFor_quotient (n : ℕ) {d : ℕ} (hd : 0 < d) :
    StandsFor (.ofMantissaAndAccuracy (n / d) (accuracyOfFraction (n % d) d)) n d := by
  rw [accuracyOfFraction]
  by_cases hzero : n % d = 0
  · rw [if_pos hzero]
    exact ⟨rfl, by simp [ExtendedMantissa.ofMantissaAndAccuracy, hzero, hd.ne'],
      by simp [ExtendedMantissa.ofMantissaAndAccuracy, hzero]⟩
  · rw [if_neg hzero]
    cases hcompare : compare (2 * (n % d)) d with
    | lt =>
        have := Nat.compare_eq_lt.mp hcompare
        exact ⟨rfl, by simp [ExtendedMantissa.ofMantissaAndAccuracy]; omega,
          by simp [ExtendedMantissa.ofMantissaAndAccuracy]; omega⟩
    | eq =>
        have := Nat.compare_eq_eq.mp hcompare
        exact ⟨rfl, by simp [ExtendedMantissa.ofMantissaAndAccuracy]; omega,
          by simp [ExtendedMantissa.ofMantissaAndAccuracy]; omega⟩
    | gt =>
        have := Nat.compare_eq_gt.mp hcompare
        exact ⟨rfl, by simp [ExtendedMantissa.ofMantissaAndAccuracy]; omega,
          by simp [ExtendedMantissa.ofMantissaAndAccuracy]; omega⟩

/-- A bit that is shifted out joins the rest. -/
theorem StandsFor.shiftRightOne {em : ExtendedMantissa} {n d : ℕ} (hd : 0 < d)
    (h : StandsFor em n d) : StandsFor em.shiftRightOne n (d * 2) := by
  have hrest : n % d < d := Nat.mod_lt n hd
  have hmod : n % (d * 2) = n % d + d * (n / d % 2) := Nat.mod_mul
  refine ⟨?_, ?_, ?_⟩
  · rw [ExtendedMantissa.shiftRightOne, h.mantissa, Nat.div_div_eq_div_mul]
  · rw [ExtendedMantissa.shiftRightOne, h.mantissa, hmod, Bool.eq_iff_iff, bne_iff_ne,
      decide_eq_true_iff]
    rcases Nat.mod_two_eq_zero_or_one (n / d) with hbit | hbit
    · rw [hbit, Nat.mul_zero]
      omega
    · rw [hbit, Nat.mul_one]
      omega
  · rw [ExtendedMantissa.shiftRightOne, h.roundBit, h.stickyBit, hmod, Bool.eq_iff_iff,
      Bool.or_eq_true, decide_eq_true_iff, decide_eq_true_iff, decide_eq_true_iff]
    rcases Nat.mod_two_eq_zero_or_one (n / d) with hbit | hbit
    · rw [hbit, Nat.mul_zero]
      omega
    · rw [hbit, Nat.mul_one]
      omega

theorem StandsFor.shiftRight {em : ExtendedMantissa} {n d : ℕ} (hd : 0 < d)
    (h : StandsFor em n d) (s : ℕ) : StandsFor (em >>> s) n (d * 2 ^ s) := by
  induction s with
  | zero =>
      rw [Nat.pow_zero, Nat.mul_one]
      exact h
  | succ s ih =>
      rw [Nat.pow_succ, ← Nat.mul_assoc]
      exact ih.shiftRightOne (Nat.mul_pos hd (Nat.two_pow_pos s))

/-- Such a mantissa is rounded as the fraction. -/
theorem StandsFor.roundedMantissa {em : ExtendedMantissa} {n d : ℕ} (h : StandsFor em n d) :
    em.roundedMantissa = roundDiv n d := by
  obtain ⟨m, r, s⟩ := em
  obtain ⟨hm, hr, hs⟩ := h
  dsimp only at hm hr hs
  rw [roundDiv, ExtendedMantissa.roundedMantissa]
  dsimp only
  cases r with
  | false =>
      have hbelow : ¬ d ≤ 2 * (n % d) := of_decide_eq_false hr.symm
      rw [if_pos (Nat.not_le.mp hbelow), ← hm]
      cases s <;> rfl
  | true =>
      have hhalf : d ≤ 2 * (n % d) := of_decide_eq_true hr.symm
      rw [if_neg (Nat.not_lt.mpr hhalf), ← hm]
      cases s with
      | false =>
          have hnone := of_decide_eq_false hs.symm
          rw [if_neg (by omega)]
          show m + m % 2 = _
          split <;> omega
      | true =>
          have hmore := of_decide_eq_true hs.symm
          rw [if_pos (by omega)]
          rfl

/-- A significand that was rounded up to one bit more, put right. -/
def carry (m : ℕ) (e : ℤ) : ℕ × ℤ := if m = 2 ^ 53 then (2 ^ 52, e + 1) else (m, e)

/-- A significand is shifted until it has 53 bits. -/
theorem shiftToTarget_eq {m s : ℕ} {e : ℤ} (hs : m.log2 = 52 + s) (he : -1074 ≤ e)
    (a : Accuracy) : shiftToTargetExponent Format.binary64 m e a
      = (ExtendedMantissa.ofMantissaAndAccuracy m a >>> s, e + s) := by
  have htarget : Format.binary64.targetExponent (totalExponent m e) = e + s := by
    simp only [Format.targetExponent, totalExponent, hs, Format.mantissaBits, Format.minExponent]
    norm_num
    omega
  have hamount : (e + s - e).toNat = s := by omega
  rw [shiftToTargetExponent, htarget, shiftToExponent, hamount]

/-- The fraction has a whole part of 53 bits, as significands have. -/
structure InRange (n d : ℕ) : Prop where
  least : 2 ^ 52 * d ≤ n
  most : n < 2 ^ 53 * d

theorem InRange.pos {n d : ℕ} (h : InRange n d) : 0 < d := by
  have := h.least.trans_lt h.most
  omega

/-- Rounded, it is a significand, or has one bit more. -/
theorem InRange.rounded {n d : ℕ} (h : InRange n d) :
    2 ^ 52 ≤ roundDiv n d ∧ roundDiv n d ≤ 2 ^ 53 := by
  obtain ⟨hlow, hhigh⟩ := roundDiv_bounds n d
  have hfrom : 2 ^ 52 ≤ n / d := (Nat.le_div_iff_mul_le h.pos).mpr h.least
  have hto : n / d < 2 ^ 53 := (Nat.div_lt_iff_lt_mul h.pos).mpr h.most
  exact ⟨hfrom.trans hlow, hhigh.trans hto⟩

/-- The bits of a number whose first 53 bits are in range once the others are cut off. -/
theorem log2_eq_add {m s : ℕ} (h : InRange m (2 ^ s)) : m.log2 = 52 + s := by
  obtain ⟨hleast, hmost⟩ := h
  have hpos : 0 < 2 ^ s := Nat.two_pow_pos s
  refine (Nat.log2_eq_iff (by omega)).mpr ⟨?_, ?_⟩
  · rw [Nat.pow_add]
    exact hleast
  · rw [Nat.add_right_comm, Nat.pow_add]
    exact hmost

/-- **ROUNDING A QUOTIENT**: it is rounded as a fraction, where its significand ends. -/
theorem roundWithAccuracy_eq {n d s : ℕ} {e : ℤ} (h : InRange n (d * 2 ^ s)) (he : -1074 ≤ e) :
    ∃ hpos, roundWithAccuracy Format.binary64 .positive (n / d) e (accuracyOfFraction (n % d) d)
      = .finite .positive (carry (roundDiv n (d * 2 ^ s)) (e + s)).1
          (carry (roundDiv n (d * 2 ^ s)) (e + s)).2 hpos := by
  have hd : 0 < d := Nat.pos_of_mul_pos_right h.pos
  have hquotient : InRange (n / d) (2 ^ s) := by
    refine ⟨(Nat.le_div_iff_mul_le hd).mpr ?_, (Nat.div_lt_iff_lt_mul hd).mpr ?_⟩
    · rw [Nat.mul_assoc, Nat.mul_comm (2 ^ s)]
      exact h.least
    · rw [Nat.mul_assoc, Nat.mul_comm (2 ^ s)]
      exact h.most
  have hfirst := shiftToTarget_eq (log2_eq_add hquotient) he (accuracyOfFraction (n % d) d)
  have hrounded := ((standsFor_quotient n hd).shiftRight hd s).roundedMantissa
  obtain ⟨hleast, hmost⟩ := h.rounded
  rw [roundWithAccuracy, hfirst]
  dsimp only
  rw [hrounded, carry]
  generalize roundDiv n (d * 2 ^ s) = m at hleast hmost
  have hexponent : -1074 ≤ e + s := by omega
  by_cases hm : m = 2 ^ 53
  · -- one bit more is shifted out
    have hlog : m.log2 = 52 + 1 := by rw [hm, Nat.log2_two_pow]
    rw [shiftToTarget_eq hlog hexponent .exact, if_pos hm, hm]
    exact ⟨Nat.two_pow_pos 52, rfl⟩
  · have hpos : 0 < m := by omega
    have hlog : m.log2 = 52 + 0 :=
      (Nat.log2_eq_iff hpos.ne').mpr ⟨hleast, lt_of_le_of_ne hmost hm⟩
    have hsecond := shiftToTarget_eq hlog hexponent .exact
    have hsame : ExtendedMantissa.ofMantissaAndAccuracy m .exact >>> 0 = ⟨m, false, false⟩ := rfl
    rw [hsame, Nat.cast_zero, add_zero] at hsecond
    rw [hsecond, if_neg hm]
    exact ⟨hpos, dif_neg hpos.ne'⟩

/-- A significand that is shifted comes back exactly. -/
theorem roundWithAccuracy_exact {m s : ℕ} {e f : ℤ} (hm : 2 ^ 52 ≤ m) (hm' : m < 2 ^ 53)
    (he : -1074 ≤ e) (hf : e + s = f) : ∃ hpos,
      roundWithAccuracy Format.binary64 .positive (m * 2 ^ s) e .exact
        = .finite .positive m f hpos := by
  subst hf
  have hs : 0 < 2 ^ s := Nat.two_pow_pos s
  have hrange : InRange (m * 2 ^ s) (1 * 2 ^ s) := by
    rw [Nat.one_mul]
    exact ⟨Nat.mul_le_mul_right _ hm, Nat.mul_lt_mul_of_pos_right hm' hs⟩
  have hexact : roundDiv (m * 2 ^ s) (1 * 2 ^ s) = m := by
    rw [roundDiv, Nat.one_mul, Nat.mul_mod_left, Nat.mul_div_cancel m hs, if_pos hs]
  have hcarry : carry m (e + s) = (m, e + s) := if_neg hm'.ne
  have hrounded := roundWithAccuracy_eq hrange he
  rw [hexact, hcarry, Nat.div_one, Nat.mod_one] at hrounded
  exact hrounded

/-! ## Doubles by significand and exponent -/

/-- The double is positive, with this significand and this exponent. -/
def HasParts (x : Float) (m : ℕ) (e : ℤ) : Prop :=
  ∃ hpos, x.toModel.unpack = .finite .positive m e hpos

/-- Parts in the range of doubles are unpacked as they were packed. -/
theorem hasParts_pack {m : ℕ} {e : ℤ} (hm : 2 ^ 52 ≤ m) (hm' : m < 2 ^ 53) (he : -1074 ≤ e)
    (he' : e ≤ 971) (hpos : 0 < m) :
    HasParts (.ofModel (.pack (.finite .positive m e hpos))) m e := by
  refine ⟨hpos, ?_⟩
  have hlog : m.log2 + 1 = Format.binary64.mantissaBits := by
    rw [(Nat.log2_eq_iff hpos.ne').mpr ⟨hm, hm'⟩]
    rfl
  obtain ⟨field, hfield⟩ := Int.eq_ofNat_of_zero_le (a := e + 1075) (by omega)
  have hfits : ¬ 2 ^ 11 ≤ field + 1 := by omega
  -- the field of the exponent is neither of the two that mean something else
  have hread : (BitVec.ofNat 11 field).toNat = field := by
    rw [BitVec.toNat_ofNat, Nat.mod_eq_of_lt (by omega)]
  have hzero : BitVec.ofNat 11 field ≠ 0#11 := fun h => by
    rw [h] at hread
    change 0 = field at hread
    omega
  have hones : BitVec.ofNat 11 field ≠ -1#11 := fun h => by
    rw [h] at hread
    change 2047 = field at hread
    omega
  -- the leading bit is not stored
  have hstored : (1#1 ++ BitVec.ofNat 52 m).toNat = m := by
    rw [BitVec.toNat_append, ← Nat.shiftLeft_add_eq_or_of_lt (BitVec.isLt _), BitVec.toNat_ofNat,
      Nat.shiftLeft_eq]
    change 1 * 2 ^ 52 + m % 2 ^ 52 = m
    omega
  have hbiased : (e + Format.binary64.exponentBias + (52 : ℕ)).toNat = field := by
    change (e + 1023 + 52).toNat = field
    omega
  have hpacked : UnpackedFloat.pack Format.binary64 (.finite .positive m e hpos)
      = packComponents Format.binary64 .positive (BitVec.ofNat 11 field) (BitVec.ofNat 52 m) := by
    rw [UnpackedFloat.pack]
    dsimp only
    rw [hbiased, if_neg hfits, if_pos hlog]
  show UnpackedFloat.unpack Format.binary64 (UnpackedFloat.pack _ _) = _
  rw [hpacked, UnpackedFloat.unpack]
  simp only [unpackMantissa_packComponents, unpackExponent_packComponents,
    unpackSign_packComponents]
  rw [if_neg hones, if_neg hzero]
  congr 1
  rw [hread]
  change (field : ℤ) - (1023 + 52) = e
  omega

/-- The order of doubles is told by what they unpack to. -/
theorem lt_iff_compare {x y : Float} :
    x < y ↔ x.toModel.unpack.compare y.toModel.unpack = some .lt := by
  show x.lt y = true ↔ _
  rw [Float.lt]
  show decide ((x.toModel.unpack.compare y.toModel.unpack == some .lt) = true) = true ↔ _
  rw [decide_eq_true_iff, beq_iff_eq]

/-- Doubles are compared by exponent, then by significand. -/
theorem HasParts.lt_iff {x y : Float} {m n : ℕ} {e f : ℤ} (hx : HasParts x m e)
    (hy : HasParts y n f) : x < y ↔ e < f ∨ e = f ∧ m < n := by
  obtain ⟨_, hx⟩ := hx
  obtain ⟨_, hy⟩ := hy
  rw [lt_iff_compare, hx, hy, UnpackedFloat.compare, Option.some.injEq, Ordering.then_eq_lt,
    compare_lt_iff_lt, compare_eq_iff_eq, compare_lt_iff_lt]

/-- What is above a double is above those that the double is not below. -/
theorem HasParts.lt_of_not_lt {x y z : Float} {m n : ℕ} {e f : ℤ} (hx : HasParts x m e)
    (hy : HasParts y n f) (h : ¬ y < x) (hz : y < z) : x < z := by
  rw [hy.lt_iff hx] at h
  obtain ⟨_, hx⟩ := hx
  obtain ⟨_, hy⟩ := hy
  rw [lt_iff_compare, hy] at hz
  rw [lt_iff_compare, hx]
  cases hparts : z.toModel.unpack with
  | notANumber => rw [hparts] at hz; cases hz
  | zero s => rw [hparts] at hz; cases hz
  | infinity s =>
      rw [hparts] at hz
      cases s with
      | negative => cases hz
      | positive => rfl
  | finite s k g hk =>
      rw [hparts] at hz
      cases s with
      | negative => cases hz
      | positive =>
          rw [UnpackedFloat.compare, Option.some.injEq, Ordering.then_eq_lt, compare_lt_iff_lt,
            compare_eq_iff_eq, compare_lt_iff_lt] at hz ⊢
          omega

/-- The unit, as numbers are read by their powers of ten. -/
theorem hasParts_one : HasParts (.ofBits 0x3FF0000000000000) (2 ^ 52) (-52) :=
  ⟨Nat.two_pow_pos 52, rfl⟩

/-- The first bit of a number of at most 53 bits stands at place 52 or below. -/
theorem log2_le_52 {n : ℕ} (hn : 0 < n) (hn' : n < 2 ^ 53) : n.log2 ≤ 52 :=
  Nat.lt_succ_iff.mp ((Nat.log2_lt hn.ne').mpr hn')

/-- A number of at most 53 bits is a significand once it is shifted until its first bit leads. -/
theorem leading_bounds {n : ℕ} (hn : 0 < n) (hn' : n < 2 ^ 53) :
    2 ^ 52 ≤ n * 2 ^ (52 - n.log2) ∧ n * 2 ^ (52 - n.log2) < 2 ^ 53 := by
  have hlog := log2_le_52 hn hn'
  obtain ⟨hleast, hmost⟩ := (Nat.log2_eq_iff hn.ne').mp (rfl : n.log2 = n.log2)
  constructor
  · calc 2 ^ 52 = 2 ^ n.log2 * 2 ^ (52 - n.log2) := by
          rw [← Nat.pow_add, Nat.add_sub_cancel' hlog]
      _ ≤ _ := Nat.mul_le_mul_right _ hleast
  · calc n * 2 ^ (52 - n.log2) < 2 ^ (n.log2 + 1) * 2 ^ (52 - n.log2) :=
          Nat.mul_lt_mul_of_pos_right hmost (Nat.two_pow_pos _)
      _ = 2 ^ 53 := by
          rw [← Nat.pow_add]
          congr 1
          omega

/-- A number that is normalized is shifted so. -/
theorem normalize_eq {n : ℕ} (hn : 0 < n) (hn' : n < 2 ^ 53) : ∃ hpos,
    UnpackedFloat.normalize Format.binary64 n 0 .positive
      = .finite .positive (n * 2 ^ (52 - n.log2)) (n.log2 - 52) hpos := by
  have hlog := log2_le_52 hn hn'
  obtain ⟨hm, hm'⟩ := leading_bounds hn hn'
  have htarget : Format.binary64.targetExponent (totalExponent n 0) = n.log2 - 52 := by
    simp only [Format.targetExponent, totalExponent, Format.mantissaBits, Format.minExponent]
    norm_num
    omega
  have hamount : ((0 : ℤ) - (n.log2 - 52)).toNat = 52 - n.log2 := by omega
  have hexponent : (0 : ℤ) - (52 - n.log2 : ℕ) = n.log2 - 52 := by omega
  obtain ⟨hpos, hexact⟩ := roundWithAccuracy_exact (s := 0) hm hm'
    (by omega : -1074 ≤ (n.log2 : ℤ) - 52) (add_zero _)
  rw [Nat.pow_zero, Nat.mul_one] at hexact
  refine ⟨hpos, ?_⟩
  have hcompare : compare (n : ℤ) 0 = .gt := compare_gt_iff_gt.mpr (Int.natCast_pos.mpr hn)
  rw [UnpackedFloat.normalize, hcompare]
  dsimp only
  rw [UnpackedFloat.round, Int.toNat_natCast, htarget]
  dsimp only
  rw [decreaseExponent, hamount, Nat.shiftLeft_eq, hexponent]
  exact hexact

/-- **COUNTS ARE EXACT**: a number of at most 53 bits is a double. -/
theorem hasParts_toFloat {n : ℕ} (hn : 0 < n) (hn' : n < 2 ^ 53) :
    HasParts n.toFloat (n * 2 ^ (52 - n.log2)) (n.log2 - 52) := by
  have hlog := log2_le_52 hn hn'
  obtain ⟨hm, hm'⟩ := leading_bounds hn hn'
  obtain ⟨hpos, hnormal⟩ := normalize_eq hn hn'
  have hword : n.toUInt64.toNat = n := Nat.mod_eq_of_lt (hn'.trans (by decide))
  have hread : HasParts n.toUInt64.toFloat (n * 2 ^ (52 - n.log2)) (n.log2 - 52) := by
    show HasParts (.ofModel (.pack
      (UnpackedFloat.normalize Format.binary64 n.toUInt64.toNat 0 .positive))) _ _
    rw [hword, hnormal]
    exact hasParts_pack hm hm' (by omega) (by omega) hpos
  -- it is read times the unit
  have hunit : n.toFloat = n.toUInt64.toFloat * .ofBits 0x3FF0000000000000 := by
    show Float.ofScientific n false 0 = _
    rw [Float.ofScientific, dif_pos ⟨hn', Nat.zero_le _⟩]
    rfl
  obtain ⟨_, hread⟩ := hread
  obtain ⟨_, hone⟩ := hasParts_one
  obtain ⟨hpos', hproduct⟩ := roundWithAccuracy_exact (s := 52) (f := n.log2 - 52) hm hm'
    (by omega : -1074 ≤ (n.log2 - 52 : ℤ) + -52) (by omega)
  rw [hunit]
  show HasParts (.ofModel (.pack (UnpackedFloat.mul Format.binary64
    n.toUInt64.toFloat.toModel.unpack (Float.ofBits 0x3FF0000000000000).toModel.unpack))) _ _
  rw [hread, hone]
  show HasParts (.ofModel (.pack (roundWithAccuracy Format.binary64 .positive _ _ .exact))) _ _
  rw [hproduct]
  exact hasParts_pack hm hm' (by omega) (by omega) hpos'

/-- Significands that are divided come into range after at most one more bit. -/
theorem exists_inRange {m n : ℕ} (hm : 2 ^ 52 ≤ m) (hm' : m < 2 ^ 53) (hn : 2 ^ 52 ≤ n)
    (hn' : n < 2 ^ 53) : ∃ s ≤ 1, InRange (m * 2 ^ 53) (n * 2 ^ s) := by
  rcases Nat.lt_or_ge m n with hlt | hge
  · exact ⟨0, Nat.zero_le 1, by omega, by omega⟩
  · exact ⟨1, Nat.le_refl 1, by omega, by omega⟩

/-- Carried over, a significand in range makes a double. -/
theorem hasParts_carry {m : ℕ} {e : ℤ} (hm : 2 ^ 52 ≤ m) (hm' : m ≤ 2 ^ 53) (he : -1074 ≤ e)
    (he' : e ≤ 970) (hpos : 0 < (carry m e).1) :
    HasParts (.ofModel (.pack (.finite .positive (carry m e).1 (carry m e).2 hpos)))
      (carry m e).1 (carry m e).2 := by
  have hcarried : 2 ^ 52 ≤ (carry m e).1 ∧ (carry m e).1 < 2 ^ 53 ∧ e ≤ (carry m e).2 ∧
      (carry m e).2 ≤ e + 1 := by
    rw [carry]
    split <;> dsimp only <;> omega
  exact hasParts_pack hcarried.1 hcarried.2.1 (by omega) (by omega) hpos

/-- **DIVISION**: the quotient of doubles is rounded as the fraction of their significands. -/
theorem HasParts.div {x y : Float} {m n s : ℕ} {e f : ℤ} (hx : HasParts x m e)
    (hy : HasParts y n f) (hm : 2 ^ 52 ≤ m) (hm' : m < 2 ^ 53) (hn : 2 ^ 52 ≤ n)
    (hn' : n < 2 ^ 53) (hleast : -1000 ≤ e - f) (hmost : e - f ≤ 900) (hs : s ≤ 1)
    (hrange : InRange (m * 2 ^ 53) (n * 2 ^ s)) :
    HasParts (x / y) (carry (roundDiv (m * 2 ^ 53) (n * 2 ^ s)) (e - f - 53 + s)).1
      (carry (roundDiv (m * 2 ^ 53) (n * 2 ^ s)) (e - f - 53 + s)).2 := by
  obtain ⟨hmpos, hx⟩ := hx
  obtain ⟨hnpos, hy⟩ := hy
  have hlogm : m.log2 = 52 := (Nat.log2_eq_iff hmpos.ne').mpr ⟨hm, hm'⟩
  have hlogn : n.log2 = 52 := (Nat.log2_eq_iff hnpos.ne').mpr ⟨hn, hn'⟩
  have htarget : min (e - f) (Format.binary64.targetExponent
      (totalExponent m e - totalExponent n f)) = e - f - 53 := by
    simp only [Format.targetExponent, totalExponent, hlogm, hlogn, Format.mantissaBits,
      Format.minExponent]
    norm_num
    omega
  have hamount : (e - f - (e - f - 53)).toNat = 53 := by omega
  have hcore : divCore Format.binary64 m e n f
      = (m * 2 ^ 53 / n, e - f - 53, accuracyOfFraction (m * 2 ^ 53 % n) n) := by
    rw [divCore, htarget, hamount, Nat.shiftLeft_eq]
  obtain ⟨hpos, hrounded⟩ := roundWithAccuracy_eq hrange (by omega : -1074 ≤ e - f - 53)
  show HasParts (.ofModel (.pack (UnpackedFloat.div Format.binary64 x.toModel.unpack
    y.toModel.unpack))) _ _
  rw [hx, hy, UnpackedFloat.div, hcore]
  dsimp only
  show HasParts (.ofModel (.pack (roundWithAccuracy Format.binary64 .positive _ _ _))) _ _
  rw [hrounded]
  exact hasParts_carry hrange.rounded.1 hrange.rounded.2 (by omega) (by omega) hpos

/-! ## Fractions as doubles -/

/-- The double is a positive fraction, scaled into the range of significands and rounded there. -/
structure Rounds (x : Float) (r : ℚ) (n d : ℕ) (e : ℤ) : Prop where
  inRange : InRange n d
  scaled : r = n / d * 2 ^ e
  parts : HasParts x (carry (roundDiv n d) e).1 (carry (roundDiv n d) e).2

/-- The exponent is told by the fraction. -/
theorem Rounds.bounds {x : Float} {r : ℚ} {n d : ℕ} {e : ℤ} (h : Rounds x r n d e) :
    2 ^ (52 + e) ≤ r ∧ r < 2 ^ (53 + e) := by
  have hd : (0 : ℚ) < d := Nat.cast_pos.mpr h.inRange.pos
  have he : (0 : ℚ) < 2 ^ e := zpow_pos two_pos e
  have hleast : ((2 : ℚ) ^ 52) ≤ n / d := by
    rw [le_div_iff₀ hd]
    exact_mod_cast h.inRange.least
  have hmost : (n / d : ℚ) < 2 ^ 53 := by
    rw [div_lt_iff₀ hd]
    exact_mod_cast h.inRange.most
  rw [h.scaled, zpow_add₀ two_ne_zero, zpow_add₀ two_ne_zero]
  exact ⟨mul_le_mul_of_nonneg_right hleast he.le, mul_lt_mul_of_pos_right hmost he⟩

/-- **THE ORDER OF FRACTIONS** is kept: rounded, the larger one is not below the other. -/
theorem Rounds.not_lt {x y : Float} {r q : ℚ} {n d n' d' : ℕ} {e f : ℤ} (hx : Rounds x r n d e)
    (hy : Rounds y q n' d' f) (hle : r ≤ q) : ¬ y < x := by
  obtain ⟨hleast, hmost⟩ := hx.inRange.rounded
  obtain ⟨hleast', hmost'⟩ := hy.inRange.rounded
  -- the larger fraction has not the smaller exponent
  have hexponents : e ≤ f := by
    by_contra hlt
    have hpower : (2 : ℚ) ^ (53 + f) ≤ 2 ^ (52 + e) :=
      zpow_le_zpow_right₀ one_le_two (by omega)
    exact absurd (hx.bounds.1.trans hle) (not_le.mpr (hy.bounds.2.trans_le hpower))
  rw [hy.parts.lt_iff hx.parts]
  rcases hexponents.lt_or_eq with hlt | rfl
  · rw [carry, carry]
    split <;> split <;> dsimp only <;> omega
  · -- on one scale the fractions are compared themselves
    have hd : (0 : ℚ) < d := Nat.cast_pos.mpr hx.inRange.pos
    have hd' : (0 : ℚ) < d' := Nat.cast_pos.mpr hy.inRange.pos
    rw [hx.scaled, hy.scaled, mul_le_mul_iff_left₀ (zpow_pos two_pos e),
      div_le_div_iff₀ hd hd'] at hle
    have hmono := roundDiv_mono hx.inRange.pos hy.inRange.pos (by exact_mod_cast hle)
    rw [carry, carry]
    split <;> split <;> dsimp only <;> omega

end MessageKeys.Decimal
