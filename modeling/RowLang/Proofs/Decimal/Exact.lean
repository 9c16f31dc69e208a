import Mathlib
import RowLang.Decimal.Shortest

/-! Floating-point numbers by their fields: a sign, a stored exponent and a fraction. The exact decimal
of a finite number rounds to this number, since no rounding is needed. -/

namespace RowLang.Decimal

open Float.Model UnpackedFloat

def bits (x : Float) : BitVec Format.binary64.numBits := x.toModel.toBits.toBitVec

def stored (x : Float) : Nat := x.toBits.toNat / 2 ^ 52 % 2 ^ 11

def fraction (x : Float) : Nat := x.toBits.toNat % 2 ^ 52

def signOf (x : Float) : Sign := if isNegative x then .negative else .positive

def significand (stored fraction : Nat) : Nat := if stored = 0 then fraction else 2 ^ 52 + fraction

section
variable {x y : Float}

theorem eq_of_toBits_toNat (h : x.toBits.toNat = y.toBits.toNat) : x = y := by
  obtain ⟨⟨b, hb⟩⟩ := x
  obtain ⟨⟨c, hc⟩⟩ := y
  obtain rfl : b = c := UInt64.toNat_inj.1 h
  rfl

theorem eq_of_readsBack {d : Decimal} (h : readsBack x d) : d.toFloat = x :=
  eq_of_toBits_toNat (congrArg UInt64.toNat (eq_of_beq h))

theorem stored_lt (x : Float) : stored x < 2 ^ 11 := Nat.mod_lt _ (by decide)

theorem fraction_lt (x : Float) : fraction x < 2 ^ 52 := Nat.mod_lt _ (by decide)

theorem isNegative_iff (x : Float) : isNegative x ↔ x.toBits.toNat / 2 ^ 63 = 1 := by
  rw [isNegative, beq_iff_eq, ← UInt64.toNat_inj, UInt64.toNat_shiftRight, Nat.shiftRight_eq_div_pow]
  rfl

theorem exact_eq (x : Float) : exact x =
    if 1075 ≤ max (stored x) 1 then
      ⟨significand (stored x) (fraction x) * 2 ^ (max (stored x) 1 - 1075), 0⟩
    else
      ⟨significand (stored x) (fraction x) * 5 ^ (1075 - max (stored x) 1),
        (max (stored x) 1 : Nat) - 1075⟩ := by
  have hs : ((x.toBits >>> 52) &&& 0x7FF).toNat = stored x := by
    rw [UInt64.toNat_and, UInt64.toNat_shiftRight, Nat.shiftRight_eq_div_pow]
    exact Nat.and_two_pow_sub_one_eq_mod _ 11
  have hf : (x.toBits &&& 0xFFFFFFFFFFFFF).toNat = fraction x := by
    rw [UInt64.toNat_and]
    exact Nat.and_two_pow_sub_one_eq_mod _ 52
  rw [exact, hs, hf]
  rfl

theorem toNat_toBits (x : Float) : x.toBits.toNat =
    (signOf x).toBitVec.toNat * 2 ^ 63 + stored x * 2 ^ 52 + fraction x := by
  have hlt : x.toBits.toNat < 2 ^ 64 := x.toBits.toNat_lt
  have hsign : (signOf x).toBitVec.toNat = x.toBits.toNat / 2 ^ 63 := by
    unfold signOf
    split
    · rename_i h
      rw [(isNegative_iff x).1 h]
      rfl
    · rename_i h
      rw [isNegative_iff] at h
      change 0 = _
      omega
  rw [hsign, stored, fraction]
  omega

theorem toNat_packComponents (s : Sign) (e : BitVec 11) (m : BitVec 52) :
    (packComponents Format.binary64 s e m).toNat =
      s.toBitVec.toNat * 2 ^ 63 + e.toNat * 2 ^ 52 + m.toNat := by
  have he := e.isLt
  have hm := m.isLt
  rw [packComponents, BitVec.toNat_append, BitVec.toNat_append, ← Nat.shiftLeft_add_eq_or_of_lt hm,
    ← Nat.shiftLeft_add_eq_or_of_lt he, Nat.shiftLeft_eq, Nat.shiftLeft_eq]
  change (_ * 2 ^ 11 + _) * 2 ^ 52 + _ = _
  omega

theorem toNat_pack_finite {s : Sign} {e f : Nat} (he : e < 2047) (hf : f < 2 ^ 52)
    (hpos : 0 < significand e f) :
    (pack Format.binary64 (.finite s (significand e f) ((max e 1 : Nat) - 1075) hpos)).toNat =
      s.toBitVec.toNat * 2 ^ 63 + e * 2 ^ 52 + f := by
  have hbiased : (((max e 1 : Nat) : Int) - 1075 + (Format.binary64.exponentBias : Nat) +
      (Format.binary64.mantissaBitsWithoutImplicit : Nat)).toNat = max e 1 := by
    change (((max e 1 : Nat) : Int) - 1075 + (1023 : Nat) + (52 : Nat)).toNat = _
    omega
  have hbound : ¬ 2 ^ Format.binary64.exponentBits ≤ max e 1 + 1 := by
    change ¬ 2 ^ 11 ≤ _
    omega
  simp only [UnpackedFloat.pack, hbiased, if_neg hbound]
  by_cases h0 : e = 0
  · subst h0
    have hlog : ¬ f.log2 + 1 = Format.binary64.mantissaBits := by
      have hlt : f.log2 < 52 := (Nat.log2_lt hpos.ne').2 hf
      exact fun heq => absurd (Nat.succ.inj heq) hlt.ne
    rw [significand, if_pos rfl, if_neg hlog, toNat_packComponents, BitVec.toNat_ofNat,
      BitVec.toNat_ofNat, Nat.mod_eq_of_lt hf, Nat.zero_mod]
  · have hlog : (2 ^ 52 + f).log2 + 1 = Format.binary64.mantissaBits := by
      have hlog : (2 ^ 52 + f).log2 = 52 :=
        (Nat.log2_eq_iff (by omega)).2 ⟨by omega, by omega⟩
      rw [hlog]
      rfl
    rw [significand, if_neg h0, if_pos hlog, toNat_packComponents, BitVec.toNat_ofNat,
      BitVec.toNat_ofNat]
    omega

theorem toNat_unpackExponent (x : Float) :
    (unpackExponent (bits x)).toNat = stored x := by
  rw [unpackExponent, BitVec.toNat_cast, BitVec.extractLsb_toNat, Nat.shiftRight_eq_div_pow]
  rfl

theorem toNat_unpackMantissa (x : Float) :
    (unpackMantissa (bits x)).toNat = fraction x := by
  rw [unpackMantissa, BitVec.toNat_cast, BitVec.extractLsb_toNat]
  rfl

theorem unpackMantissa_eq_zero_iff (x : Float) : unpackMantissa (bits x) = 0#52 ↔ fraction x = 0 := by
  rw [← BitVec.toNat_inj, toNat_unpackMantissa]
  rfl

theorem ofBitVec_unpackSign (x : Float) :
    Sign.ofBitVec (unpackSign (bits x)) = signOf x := by
  have hlt : x.toBits.toNat < 2 ^ 64 := x.toBits.toNat_lt
  have hsign : (unpackSign (bits x)).toNat =
      x.toBits.toNat / 2 ^ 63 := by
    rw [unpackSign, BitVec.toNat_cast, BitVec.extractLsb_toNat, Nat.shiftRight_eq_div_pow]
    change x.toBits.toNat / 2 ^ 63 % 2 = _
    omega
  have hzero : unpackSign (bits x) = 0#1 ↔ ¬ isNegative x := by
    rw [← BitVec.toNat_inj, hsign, isNegative_iff]
    change _ = 0 ↔ _
    omega
  simp only [Sign.ofBitVec, signOf, hzero, ite_not]

theorem unpack_of_stored_lt (h : stored x < 2047) : x.toModel.unpack =
    if h0 : significand (stored x) (fraction x) = 0 then .zero (signOf x)
    else .finite (signOf x) (significand (stored x) (fraction x)) ((max (stored x) 1 : Nat) - 1075)
      (Nat.pos_of_ne_zero h0) := by
  have hinf : unpackExponent (bits x) ≠ -1#_ := by
    rw [ne_eq, ← BitVec.toNat_inj, toNat_unpackExponent]
    exact h.ne
  have hzero : unpackExponent (bits x) = 0#_ ↔
      stored x = 0 := by
    rw [← BitVec.toNat_inj, toNat_unpackExponent]
    rfl
  change UnpackedFloat.unpack Format.binary64 (bits x) = _
  rw [UnpackedFloat.unpack]
  simp only [if_neg hinf, hzero, ofBitVec_unpackSign, toNat_unpackExponent, toNat_unpackMantissa]
  by_cases h0 : stored x = 0
  · simp only [significand, h0, if_true]
    by_cases hf : fraction x = 0
    · rw [dif_pos ((unpackMantissa_eq_zero_iff x).2 hf), dif_pos hf]
    · rw [dif_neg (mt (unpackMantissa_eq_zero_iff x).1 hf), dif_neg hf]
      rfl
  · have hmantissa : (1#1 ++ unpackMantissa (bits x)).toNat = 2 ^ 52 + fraction x := by
      have hlt : (unpackMantissa (bits x)).toNat < 2 ^ 52 := (unpackMantissa (bits x)).isLt
      rw [BitVec.toNat_append, ← Nat.shiftLeft_add_eq_or_of_lt hlt, toNat_unpackMantissa]
      rfl
    have hscale : max (stored x) 1 = stored x := by omega
    have hne : ¬ 2 ^ 52 + fraction x = 0 := by omega
    simp only [significand, h0, if_false, hmantissa, hscale, dif_neg hne]
    rfl

theorem unpack_of_stored_eq (h : stored x = 2047) : x.toModel.unpack =
    if fraction x = 0 then .infinity (signOf x) else .notANumber := by
  have hinf : unpackExponent (bits x) = -1#_ := by
    rw [← BitVec.toNat_inj, toNat_unpackExponent, h]
    rfl
  change UnpackedFloat.unpack Format.binary64 (bits x) = _
  rw [UnpackedFloat.unpack]
  simp only [if_pos hinf, ofBitVec_unpackSign]
  exact if_congr (unpackMantissa_eq_zero_iff x) rfl rfl

theorem isNaN_iff : x.isNaN ↔ stored x = 2047 ∧ fraction x ≠ 0 := by
  have hlt := stored_lt x
  change x.toModel.unpack.isNaN ↔ _
  by_cases h : stored x = 2047
  · rw [unpack_of_stored_eq h]
    split <;> simp [UnpackedFloat.isNaN, *]
  · rw [unpack_of_stored_lt (by omega)]
    split <;> simp [UnpackedFloat.isNaN, h]

theorem isInf_iff : x.isInf ↔ stored x = 2047 ∧ fraction x = 0 := by
  have hlt := stored_lt x
  change x.toModel.unpack.isInf ↔ _
  by_cases h : stored x = 2047
  · rw [unpack_of_stored_eq h]
    split <;> simp [UnpackedFloat.isInf, *]
  · rw [unpack_of_stored_lt (by omega)]
    split <;> simp [UnpackedFloat.isInf, h]

theorem eq_of_isNaN (hx : x.isNaN) (hy : y.isNaN) : x = y := by
  have hpacked : ∀ z : Float, z.isNaN → bits z = packedNaN Format.binary64 := by
    intro z hz
    obtain ⟨hs, hf⟩ := isNaN_iff.1 hz
    refine z.toModel.valid.eq_packedNaN ?_ (mt (unpackMantissa_eq_zero_iff z).1 hf)
    change unpackExponent (bits z) = _
    rw [← BitVec.toNat_inj, toNat_unpackExponent, hs]
    rfl
  exact eq_of_toBits_toNat (congrArg BitVec.toNat ((hpacked x hx).trans (hpacked y hy).symm))

theorem toNat_neg (h : ¬ x.isNaN) : (-x).toBits.toNat =
    (-signOf x).toBitVec.toNat * 2 ^ 63 + stored x * 2 ^ 52 + fraction x := by
  have hlt := stored_lt x
  have hneg : (-x).toBits.toNat = (UnpackedFloat.pack Format.binary64 x.toModel.unpack.neg).toNat := rfl
  rw [hneg]
  by_cases hs : stored x = 2047
  · have hf : fraction x = 0 := by
      by_contra hf
      exact h (isNaN_iff.2 ⟨hs, hf⟩)
    rw [unpack_of_stored_eq hs, if_pos hf, hs, hf]
    exact toNat_packComponents _ _ _
  · rw [unpack_of_stored_lt (by omega)]
    split
    · rename_i h0
      have hzero : stored x = 0 ∧ fraction x = 0 := by
        unfold significand at h0
        split at h0
        · exact ⟨‹_›, h0⟩
        · omega
      rw [hzero.1, hzero.2]
      exact toNat_packComponents _ _ _
    · exact toNat_pack_finite (by omega) (fraction_lt x) _

theorem fields_of_toNat {s : Sign} {e f : Nat} (he : e < 2 ^ 11) (hf : f < 2 ^ 52)
    (h : x.toBits.toNat = s.toBitVec.toNat * 2 ^ 63 + e * 2 ^ 52 + f) :
    signOf x = s ∧ stored x = e ∧ fraction x = f := by
  have hs : s.toBitVec.toNat < 2 ^ 1 := s.toBitVec.isLt
  refine ⟨?_, ?_, ?_⟩
  · have hneg := isNegative_iff x
    unfold signOf
    cases s with
    | negative =>
      rw [if_pos (hneg.2 ?_)]
      change _ = 1 * 2 ^ 63 + _ + _ at h
      omega
    | positive =>
      rw [if_neg fun hn => ?_]
      have hone := hneg.1 hn
      change _ = 0 * 2 ^ 63 + _ + _ at h
      omega
  · unfold stored
    omega
  · unfold fraction
    omega

theorem fields_neg (h : ¬ x.isNaN) :
    signOf (-x) = -signOf x ∧ stored (-x) = stored x ∧ fraction (-x) = fraction x :=
  fields_of_toNat (stored_lt x) (fraction_lt x) (toNat_neg h)

theorem neg_neg_of_not_isNaN (h : ¬ x.isNaN) : - -x = x := by
  obtain ⟨hsign, hstored, hfraction⟩ := fields_neg h
  have hneg : ¬ (-x).isNaN := by
    rw [isNaN_iff, hstored, hfraction, ← isNaN_iff]
    exact h
  refine eq_of_toBits_toNat ?_
  rw [toNat_neg hneg, hsign, hstored, hfraction, toNat_toBits x]
  cases signOf x <;> rfl

end

section
variable {m : Nat} {e : Int} {s : Sign}

def Canonical (m : Nat) (e : Int) : Prop :=
  0 < m ∧ m < 2 ^ 53 ∧ -1074 ≤ e ∧ (2 ^ 52 ≤ m ∨ e = -1074)

theorem log2_mul_two_pow (hm : 0 < m) (j : Nat) : (m * 2 ^ j).log2 = m.log2 + j := by
  have hpos : m * 2 ^ j ≠ 0 := (Nat.mul_pos hm (Nat.two_pow_pos j)).ne'
  refine (Nat.log2_eq_iff hpos).2 ⟨?_, ?_⟩
  · rw [Nat.pow_add]
    exact Nat.mul_le_mul_right _ (Nat.log2_self_le hm.ne')
  · rw [Nat.add_right_comm, Nat.pow_add]
    exact Nat.mul_lt_mul_of_pos_right Nat.lt_log2_self (Nat.two_pow_pos j)

theorem shiftRight_exact (m j : Nat) :
    ExtendedMantissa.mk (m * 2 ^ j) false false >>> j = ⟨m, false, false⟩ := by
  induction j generalizing m with
  | zero => simp [HShiftRight.hShiftRight, Nat.repeat]
  | succ j ih =>
    have hstep : ExtendedMantissa.mk (m * 2 ^ (j + 1)) false false >>> (j + 1) =
        (ExtendedMantissa.mk (m * 2 * 2 ^ j) false false >>> j).shiftRightOne := by
      rw [Nat.pow_succ', ← Nat.mul_assoc]
      rfl
    rw [hstep, ih]
    simp [ExtendedMantissa.shiftRightOne]

theorem targetExponent_eq (total : Int) :
    Format.binary64.targetExponent total = max (total - 53) (-1074) := rfl

theorem shiftToTargetExponent_exact (h : Canonical m e) (j : Nat) :
    shiftToTargetExponent Format.binary64 (m * 2 ^ j) (e - j) .exact = (⟨m, false, false⟩, e) := by
  obtain ⟨hpos, hlt, hmin, hnormal⟩ := h
  have hlog : m.log2 < 53 := (Nat.log2_lt hpos.ne').2 hlt
  have htarget : Format.binary64.targetExponent (totalExponent (m * 2 ^ j) (e - j)) = e := by
    rw [targetExponent_eq, totalExponent, log2_mul_two_pow hpos]
    rcases hnormal with hnormal | rfl
    · have hge : 52 ≤ m.log2 := (Nat.le_log2 hpos.ne').2 hnormal
      push_cast
      omega
    · push_cast
      omega
  rw [shiftToTargetExponent, htarget, shiftToExponent]
  have hamount : (e - (e - j)).toNat = j := by omega
  simp only [hamount, ExtendedMantissa.ofMantissaAndAccuracy, shiftRight_exact]
  exact Prod.ext rfl (by simp)

/-- A number of the format is rounded to itself, with whatever zeros behind it. -/
theorem roundWithAccuracy_exact (h : Canonical m e) (j : Nat) :
    roundWithAccuracy Format.binary64 s (m * 2 ^ j) (e - j) .exact = .finite s m e h.1 := by
  have hagain := shiftToTargetExponent_exact h 0
  simp only [Nat.pow_zero, Nat.mul_one, Nat.cast_zero, sub_zero] at hagain
  simp only [roundWithAccuracy, shiftToTargetExponent_exact h j, ExtendedMantissa.roundedMantissa,
    ExtendedMantissa.accuracy, Accuracy.roundToNearestEven, hagain, dif_neg h.1.ne']

theorem ofScientific_zero (e : Int) :
    UnpackedFloat.ofScientific Format.binary64 0 e = .zero .positive := by
  rw [UnpackedFloat.ofScientific, dif_pos rfl]

theorem ofScientific_of_nonneg (hm : 0 < m) (he : 0 ≤ e) (hle : e ≤ 2 ^ 11) :
    UnpackedFloat.ofScientific Format.binary64 m e =
      roundWithAccuracy Format.binary64 .positive (m * 10 ^ e.toNat * 2 ^ 53) (-53) .exact := by
  have hlow : ¬ e < -((2 ^ Format.binary64.exponentBits : Int) + (m.log2 : Nat)) := by
    change ¬ e < -(2 ^ 11 + _)
    omega
  have hproduct : m <<< Format.binary64.mantissaBits * 10 ^ e.toNat = m * 10 ^ e.toNat * 2 ^ 53 := by
    rw [Nat.shiftLeft_eq, Nat.mul_right_comm]
    rfl
  rw [UnpackedFloat.ofScientific, dif_neg hm.ne', if_neg (not_lt.2 hle), if_neg hlow, if_pos he,
    UnpackedFloat.mul, hproduct]
  rfl

theorem ofScientific_mul (hm : 0 < m) (he : 0 ≤ e) (hle : e ≤ 2 ^ 11) :
    UnpackedFloat.ofScientific Format.binary64 (m * 10 ^ e.toNat) 0 =
      UnpackedFloat.ofScientific Format.binary64 m e := by
  rw [ofScientific_of_nonneg hm he hle,
    ofScientific_of_nonneg (Nat.mul_pos hm (Nat.pow_pos (by decide))) le_rfl (by decide)]
  simp

theorem ofScientific_integer {k : Nat} (h : Canonical m k) :
    UnpackedFloat.ofScientific Format.binary64 (m * 2 ^ k) 0 = .finite .positive m k h.1 := by
  rw [ofScientific_of_nonneg (Nat.mul_pos h.1 (Nat.two_pow_pos k)) le_rfl (by decide)]
  have hshift := roundWithAccuracy_exact (s := .positive) h (k + 53)
  have hexp : (k : Int) - (k + 53 : Nat) = -53 := by omega
  rw [hexp, Nat.pow_add, ← Nat.mul_assoc] at hshift
  simpa using hshift

theorem divCore_exact {q : Nat} (h : Canonical m (-q)) : ∃ j : Nat,
    divCore Format.binary64 (m * 5 ^ q) 0 (10 ^ q) 0 = (m * 2 ^ j, -(q : Int) - j, .exact) := by
  obtain ⟨hpos, hlt, hmin, -⟩ := h
  have hpos5 : 0 < 5 ^ q := Nat.pow_pos (by decide)
  have hten : (10 : Nat) ^ q = 5 ^ q * 2 ^ q := by rw [← Nat.mul_pow]
  -- the dividend is less than `2 ^ 53` times the power of five
  have hlog : (m * 5 ^ q).log2 ≤ 53 + (5 ^ q).log2 := by
    have hbound : m * 5 ^ q < 2 ^ (53 + (5 ^ q).log2 + 1) := by
      rw [Nat.add_assoc, Nat.pow_add]
      exact Nat.mul_lt_mul'' hlt Nat.lt_log2_self
    exact Nat.lt_succ_iff.1 ((Nat.log2_lt (Nat.mul_pos hpos hpos5).ne').2 hbound)
  have hlog10 : (10 ^ q).log2 = (5 ^ q).log2 + q := by rw [hten, log2_mul_two_pow hpos5]
  -- so the dividend is shifted by `q` places at least, and the division leaves no rest
  obtain ⟨j, hj⟩ : ∃ j : Nat, min ((0 : Int) - 0) (Format.binary64.targetExponent
      (totalExponent (m * 5 ^ q) 0 - totalExponent (10 ^ q) 0)) = -(q : Int) - j := by
    have htarget : Format.binary64.targetExponent
        (totalExponent (m * 5 ^ q) 0 - totalExponent (10 ^ q) 0) ≤ -q := by
      rw [targetExponent_eq, totalExponent, totalExponent, hlog10]
      push_cast
      omega
    generalize Format.binary64.targetExponent _ = target at htarget
    exact ⟨(-(q : Int) - target).toNat, by rw [min_eq_right (by omega)]; omega⟩
  have hamount : ((0 : Int) - 0 - (-(q : Int) - j)).toNat = q + j := by omega
  have hshift : (m * 5 ^ q) <<< (q + j) = m * 2 ^ j * 10 ^ q := by
    rw [Nat.shiftLeft_eq, Nat.pow_add, hten]
    ring
  refine ⟨j, ?_⟩
  simp only [divCore, hj, hamount, hshift, Nat.mul_div_cancel _ (Nat.pow_pos (n := q) (by decide : 0 < 10)),
    Nat.mul_mod_left, accuracyOfFraction, if_true]

theorem ofScientific_fraction {q : Nat} (hq : 0 < q) (h : Canonical m (-q)) :
    UnpackedFloat.ofScientific Format.binary64 (m * 5 ^ q) (-q) = .finite .positive m (-q) h.1 := by
  have hpos : 0 < m * 5 ^ q := Nat.mul_pos h.1 (Nat.pow_pos (by decide))
  have hhigh : ¬ (-(q : Int)) > 2 ^ Format.binary64.exponentBits := by
    change ¬ _ > 2 ^ 11
    omega
  have hlow : ¬ (-(q : Int)) < -((2 ^ Format.binary64.exponentBits : Int) + ((m * 5 ^ q).log2 : Nat)) := by
    obtain ⟨-, -, hmin, -⟩ := h
    change ¬ _ < -(2 ^ 11 + _)
    omega
  have hneg : ¬ 0 ≤ -(q : Int) := by omega
  obtain ⟨j, hj⟩ := divCore_exact h
  have hround : roundWithAccuracy Format.binary64 (Sign.positive / Sign.positive) (m * 2 ^ j)
      (-(q : Int) - j) .exact = .finite .positive m (-q) h.1 := roundWithAccuracy_exact h j
  rw [UnpackedFloat.ofScientific, dif_neg hpos.ne', if_neg hhigh, if_neg hlow, if_neg hneg,
    UnpackedFloat.div]
  simp only [neg_neg, Int.toNat_natCast, hj, hround]

end

theorem canonical_significand {e f : Nat} (hf : f < 2 ^ 52) (h : 0 < significand e f) :
    Canonical (significand e f) ((max e 1 : Nat) - 1075) := by
  unfold significand at h ⊢
  split
  · rename_i h0
    rw [if_pos h0] at h
    subst h0
    exact ⟨h, by omega, by omega, Or.inr rfl⟩
  · exact ⟨by omega, by omega, by omega, Or.inl (by omega)⟩

/-- The exact decimal of a number is rounded to this number. -/
theorem toFloat_exact {x : Float} (hfinite : stored x < 2047) (hsign : signOf x = .positive) :
    (exact x).toFloat = x := by
  have hbits := toNat_toBits x
  refine eq_of_toBits_toNat ?_
  change (UnpackedFloat.pack Format.binary64
    (UnpackedFloat.ofScientific Format.binary64 (exact x).digits (exact x).exponent)).toNat = _
  rw [hbits, hsign]
  by_cases h0 : significand (stored x) (fraction x) = 0
  · have hzero : stored x = 0 ∧ fraction x = 0 := by
      unfold significand at h0
      split at h0
      · exact ⟨‹_›, h0⟩
      · omega
    have hdigits : (exact x).digits = 0 := by
      rw [exact_eq, h0]
      split <;> simp
    rw [hdigits, ofScientific_zero, hzero.1, hzero.2]
    exact toNat_packComponents _ _ _
  · have hcanonical := canonical_significand (fraction_lt x) (Nat.pos_of_ne_zero h0)
    rw [exact_eq]
    split
    · rename_i hscale
      have hexp : ((max (stored x) 1 : Nat) : Int) - 1075 = (max (stored x) 1 - 1075 : Nat) := by omega
      have hpack := toNat_pack_finite (s := .positive) hfinite (fraction_lt x) hcanonical.1
      simp only [hexp] at hcanonical hpack
      rw [ofScientific_integer hcanonical, hpack]
    · rename_i hscale
      have hexp : ((max (stored x) 1 : Nat) : Int) - 1075 = -(1075 - max (stored x) 1 : Nat) := by omega
      have hpack := toNat_pack_finite (s := .positive) hfinite (fraction_lt x) hcanonical.1
      simp only [hexp] at hcanonical hpack ⊢
      rw [ofScientific_fraction (by omega) hcanonical, hpack]

end RowLang.Decimal
