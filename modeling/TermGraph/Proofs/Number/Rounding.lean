import Mathlib
import TermGraph.Number.Binary64

/-!
# Rounding machine integers to doubles

A machine integer becomes the nearest double.  The pattern of a positive double counts the doubles
below it, so the pattern of a positive integer is read off its leading fifty-three bits, and a
greater integer never gets a smaller double.

* `Binary64.nearest m k`: the quotient of `m` by `2 ^ k`, rounded to the nearest integer, and to the
  even one of two.
* `Binary64.roundWithAccuracy_eq`: rounding a significand to fifty-three bits.
* `Binary64.exists_toModel_ofNat`: the double of a natural number.
* `Binary64.rank_ofInt64_mono`: the conversion of machine integers is monotone.
* `Binary64.rank_injective`: the total order of doubles tells all patterns apart.
-/

namespace TermGraph.Binary64

open Float.Model (Format UnpackedFloat)
open Float.Model.UnpackedFloat (Sign ExtendedMantissa)

variable {m n k : ℕ} {e : ℤ}

/-! ## Rounded quotients -/

/-- The quotient of `m` by `2 ^ k`, rounded to the nearest integer.  Halfway between two integers it
is the even one. -/
def nearest (m k : ℕ) : ℕ :=
  m / 2 ^ k +
    if 2 ^ k < 2 * (m % 2 ^ k) ∨ 2 * (m % 2 ^ k) = 2 ^ k ∧ m / 2 ^ k % 2 = 1 then 1 else 0

lemma nearest_mono (h : m ≤ n) (k : ℕ) : nearest m k ≤ nearest n k := by
  have hdiv : m / 2 ^ k ≤ n / 2 ^ k := Nat.div_le_div_right h
  unfold nearest
  rcases hdiv.lt_or_eq with hlt | heq
  · split_ifs <;> omega
  · have hmod : m % 2 ^ k ≤ n % 2 ^ k := by
      have hm := Nat.mod_add_div m (2 ^ k)
      have hn := Nat.mod_add_div n (2 ^ k)
      rw [heq] at hm
      omega
    rw [heq]
    split_ifs <;> omega

lemma nearest_mul_pow (m k : ℕ) : nearest (m * 2 ^ k) k = m := by
  have hpos : 0 < 2 ^ k := by positivity
  simp only [nearest, Nat.mul_mod_left, Nat.mul_div_cancel _ hpos]
  split_ifs <;> omega

lemma nearest_zero (m : ℕ) : nearest m 0 = m := by
  simpa using nearest_mul_pow m 0

/-- A number of `53 + k` bits has a quotient of fifty-three bits. -/
lemma nearest_bounds (hm : m ≠ 0) (hlog : m.log2 = 52 + k) :
    2 ^ 52 ≤ nearest m k ∧ nearest m k ≤ 2 ^ 53 := by
  have hlow : 2 ^ 52 * 2 ^ k ≤ m := by
    rw [← pow_add, ← hlog]
    exact Nat.log2_self_le hm
  have hhigh : m ≤ 2 ^ 53 * 2 ^ k := by
    rw [← pow_add, show 53 + k = m.log2 + 1 by omega]
    exact Nat.lt_log2_self.le
  rw [← nearest_mul_pow (2 ^ 52) k, ← nearest_mul_pow (2 ^ 53) k]
  exact ⟨nearest_mono hlow k, nearest_mono hhigh k⟩

/-! ## Rounding significands -/

/-- A significand without residual bits that is shifted to the right.  The round bit is the last one
that has been shifted out, the sticky bit says whether there are others before it. -/
lemma shiftRight_succ (m k : ℕ) :
    (⟨m, false, false⟩ : ExtendedMantissa) >>> (k + 1) =
      ⟨m / 2 ^ (k + 1), m / 2 ^ k % 2 != 0, m % 2 ^ k != 0⟩ := by
  have hstep (em : ExtendedMantissa) (k : ℕ) : em >>> (k + 1) = (em >>> k).shiftRightOne := rfl
  induction k with
  | zero =>
    rw [hstep]
    show (⟨m, false, false⟩ : ExtendedMantissa).shiftRightOne = _
    simp [ExtendedMantissa.shiftRightOne, Nat.mod_one]
  | succ k ih =>
    have hsticky : (m / 2 ^ k % 2 != 0 || m % 2 ^ k != 0) = (m % 2 ^ (k + 1) != 0) := by
      have hmod := Nat.mod_mul (x := m) (a := 2 ^ k) (b := 2)
      rw [← pow_succ] at hmod
      have hpos : 0 < 2 ^ k := by positivity
      rw [Bool.eq_iff_iff]
      simp only [Bool.or_eq_true, bne_iff_ne, hmod]
      rcases Nat.mod_two_eq_zero_or_one (m / 2 ^ k) with h | h <;> simp [h]
    rw [hstep, ih, ExtendedMantissa.shiftRightOne, hsticky, Nat.div_div_eq_div_mul, ← pow_succ]

/-- The residual bits decide on the rounding of the quotient `q`.  They say how the remainder
`t + d * b` compares with one half of the divisor `2 * d`. -/
lemma roundedMantissa_mk {q b t d : ℕ} (hb : b = 0 ∨ b = 1) (ht : t < d) :
    (⟨q, b != 0, t != 0⟩ : ExtendedMantissa).roundedMantissa =
      q + if 2 * d < 2 * (t + d * b) ∨ 2 * (t + d * b) = 2 * d ∧ q % 2 = 1 then 1 else 0 := by
  rcases Nat.eq_zero_or_pos t with rfl | hpos
  · rcases hb with rfl | rfl
    · rw [if_neg (by omega)]
      rfl
    · show q + q % 2 = _
      split_ifs <;> omega
  · have hsticky : (t != 0) = true := bne_iff_ne.2 hpos.ne'
    rw [hsticky]
    rcases hb with rfl | rfl
    · rw [if_neg (by omega)]
      rfl
    · rw [if_pos (by omega)]
      rfl

lemma roundedMantissa_shiftRight (m k : ℕ) :
    ((⟨m, false, false⟩ : ExtendedMantissa) >>> k).roundedMantissa = nearest m k := by
  cases k with
  | zero => exact (nearest_zero m).symm
  | succ k =>
    have hmod : m % 2 ^ (k + 1) = m % 2 ^ k + 2 ^ k * (m / 2 ^ k % 2) := by
      rw [pow_succ, Nat.mod_mul]
    rw [shiftRight_succ, roundedMantissa_mk (Nat.mod_two_eq_zero_or_one _)
      (Nat.mod_lt m (by positivity : 0 < 2 ^ k)), nearest, hmod, pow_succ, mul_comm (2 ^ k) 2]

/-- A significand of `53 + k` bits is shifted by `k`, unless the result is below the least exponent. -/
lemma shiftToTargetExponent_eq (hlog : m.log2 = 52 + k) (he : -1074 ≤ e + k) :
    UnpackedFloat.shiftToTargetExponent Format.binary64 m e .exact =
      ((⟨m, false, false⟩ : ExtendedMantissa) >>> k, e + k) := by
  have htarget : Format.binary64.targetExponent (Float.Model.totalExponent m e) = e + k := by
    simp only [Format.targetExponent, Float.Model.totalExponent, Format.mantissaBits,
      Format.minExponent, hlog]
    norm_num
    omega
  rw [UnpackedFloat.shiftToTargetExponent, htarget]
  have hshift : (e + k - e).toNat = k := by omega
  simp only [UnpackedFloat.shiftToExponent, hshift]
  rfl

/-- The double `m * 2 ^ e` for a significand of fifty-three bits, counted from the least one. -/
def place (m : ℕ) (e : ℤ) : ℤ :=
  (e + 1074) * 2 ^ 52 + m

/-- The significand has fifty-three bits, and the exponent is one of a double. -/
structure Normal (m : ℕ) (e : ℤ) : Prop where
  /-- The leading bit is set. -/
  le : 2 ^ 52 ≤ m
  /-- There are no more bits. -/
  lt : m < 2 ^ 53
  /-- No exponent is less. -/
  least : -1074 ≤ e
  /-- No exponent is greater. -/
  greatest : e ≤ 971

lemma Normal.pos (h : Normal m e) : 0 < m := lt_of_lt_of_le (by norm_num) h.le

/-- Rounding a significand of `53 + k` bits drops `k` of them.  If it carries over, the significand
is a power of two and loses one more bit. -/
lemma roundWithAccuracy_eq (s : Sign) (hm : m ≠ 0) (hlog : m.log2 = 52 + k) (hlow : -1074 ≤ e + k)
    (hhigh : e + k < 971) :
    ∃ M E, ∃ h : Normal M E, place M E = place (nearest m k) (e + k) ∧
      UnpackedFloat.roundWithAccuracy Format.binary64 s m e .exact =
        .finite s M E h.pos := by
  obtain ⟨hle, hge⟩ := nearest_bounds hm hlog
  have hround : UnpackedFloat.roundWithAccuracy Format.binary64 s m e .exact =
      let final := UnpackedFloat.shiftToTargetExponent Format.binary64 (nearest m k)
        (e + k) .exact
      if h : final.1.mantissa = 0 then .zero s
      else .finite s final.1.mantissa final.2 (Nat.pos_of_ne_zero h) := by
    rw [UnpackedFloat.roundWithAccuracy, shiftToTargetExponent_eq hlog hlow,
      ← roundedMantissa_shiftRight]
  rcases hge.lt_or_eq with hlt | heq
  · have hnormal : Normal (nearest m k) (e + k) := ⟨hle, hlt, hlow, hhigh.le⟩
    have hlog' : (nearest m k).log2 = 52 + 0 :=
      (Nat.log2_eq_iff hnormal.pos.ne').2 ⟨hle, hlt⟩
    refine ⟨_, _, hnormal, rfl, ?_⟩
    rw [hround, shiftToTargetExponent_eq hlog' (by simpa using hlow), Nat.cast_zero, add_zero]
    exact dif_neg hnormal.pos.ne'
  · have hnormal : Normal (2 ^ 52) (e + k + 1) := ⟨le_rfl, by norm_num, by omega, by omega⟩
    have hlog' : (2 ^ 53 : ℕ).log2 = 52 + 1 := Nat.log2_two_pow
    refine ⟨_, _, hnormal, ?_, ?_⟩
    · rw [heq, place, place]
      push_cast
      ring
    · rw [hround, heq, shiftToTargetExponent_eq hlog' (by push_cast; omega)]
      rfl

/-! ## Patterns -/

/-- The sign bit. -/
def signBit : Sign → ℤ
  | .positive => 0
  | .negative => 2 ^ 63

lemma pack_eq (s : Sign) (h : Normal m e) :
    UnpackedFloat.pack Format.binary64 (.finite s m e h.pos) =
      UnpackedFloat.packComponents Format.binary64 s (BitVec.ofNat 11 (e + 1075).toNat)
        (BitVec.ofNat 52 m) := by
  have hlog : m.log2 = 52 := (Nat.log2_eq_iff h.pos.ne').2 ⟨h.le, h.lt⟩
  have hbias : e + (Format.binary64.exponentBias : ℤ) + (52 : ℕ) = e + 1075 := by
    rw [show (Format.binary64.exponentBias : ℤ) = 1023 from rfl]
    omega
  have hfits : ¬2 ^ 11 ≤ (e + 1075).toNat + 1 := by
    have := h.greatest
    omega
  simp only [UnpackedFloat.pack, hbias, hlog]
  rw [if_neg hfits, if_pos (by rfl)]

/-- The pattern of a double counts the doubles below it. -/
lemma toNat_pack (s : Sign) (h : Normal m e) :
    ((UnpackedFloat.pack Format.binary64 (.finite s m e h.pos)).toNat : ℤ) =
      signBit s + place m e := by
  have ⟨hle, hlt, hleast, hgreatest⟩ := h
  have hfield : (BitVec.ofNat 11 (e + 1075).toNat).toNat = (e + 1075).toNat := by
    rw [BitVec.toNat_ofNat]
    omega
  have hfraction : (BitVec.ofNat 52 m).toNat = m - 2 ^ 52 := by
    rw [BitVec.toNat_ofNat]
    omega
  rw [pack_eq s h, UnpackedFloat.packComponents, BitVec.toNat_append,
    ← Nat.shiftLeft_add_eq_or_of_lt (BitVec.isLt _), BitVec.toNat_append,
    ← Nat.shiftLeft_add_eq_or_of_lt (BitVec.isLt _), hfield, hfraction]
  simp only [Nat.shiftLeft_eq, place]
  have hsign : (s.toBitVec.toNat : ℤ) * 2 ^ 63 = signBit s := by cases s <;> rfl
  rw [← hsign]
  omega

lemma unpackSign_packComponents (s : Sign) (field : BitVec 11) (fraction : BitVec 52) :
    @UnpackedFloat.unpackSign Format.binary64
      (UnpackedFloat.packComponents Format.binary64 s field fraction) = s.toBitVec := by
  ext i hi
  obtain rfl : i = 0 := by omega
  have hbit : (s.toBitVec ++ field ++ fraction).getLsbD 63 = s.toBitVec[0] := by
    rw [BitVec.getLsbD_append, BitVec.getLsbD_append]
    rfl
  simpa [UnpackedFloat.unpackSign, UnpackedFloat.packComponents,
    -BitVec.getLsbD_eq_getElem] using hbit

/-- A packed double unpacks to itself. -/
lemma unpack_pack (s : Sign) (h : Normal m e) :
    (Float.Model.pack (.finite s m e h.pos)).unpack = .finite s m e h.pos := by
  have ⟨hle, hlt, hleast, hgreatest⟩ := h
  have hfield : (BitVec.ofNat 11 (e + 1075).toNat).toNat = (e + 1075).toNat := by
    rw [BitVec.toNat_ofNat]
    omega
  have hnonzero : BitVec.ofNat 11 (e + 1075).toNat ≠ 0#11 := fun h => by
    have := congrArg BitVec.toNat h
    rw [hfield, BitVec.toNat_ofNat] at this
    omega
  have hfinite : BitVec.ofNat 11 (e + 1075).toNat ≠ -1#11 := fun h => by
    have := congrArg BitVec.toNat h
    rw [hfield, show (-1#11).toNat = 2047 from rfl] at this
    omega
  have hmantissa : (1#1 ++ BitVec.ofNat 52 m).toNat = m := by
    rw [BitVec.toNat_append, ← Nat.shiftLeft_add_eq_or_of_lt (BitVec.isLt _), BitVec.toNat_ofNat,
      Nat.shiftLeft_eq]
    show 1 * 2 ^ 52 + m % 2 ^ 52 = m
    omega
  have hsign : Sign.ofBitVec s.toBitVec = s := by cases s <;> rfl
  show UnpackedFloat.unpack Format.binary64 (UnpackedFloat.pack Format.binary64 _) = _
  rw [pack_eq s h]
  simp only [UnpackedFloat.unpack, UnpackedFloat.unpackMantissa_packComponents,
    UnpackedFloat.unpackExponent_packComponents, unpackSign_packComponents, hfinite,
    hnonzero, if_false, hmantissa, hfield, hsign]
  congr 1
  have hbias : (Format.binary64.exponentBias : ℤ) = 1023 := rfl
  omega

/-! ## Natural numbers -/

lemma log2_mul_pow (hn : n ≠ 0) (k : ℕ) : (n * 2 ^ k).log2 = n.log2 + k := by
  refine (Nat.log2_eq_iff (by positivity)).2 ⟨?_, ?_⟩
  · rw [pow_add]
    exact Nat.mul_le_mul_right _ (Nat.log2_self_le hn)
  · rw [add_right_comm, pow_add]
    exact Nat.mul_lt_mul_of_pos_right Nat.lt_log2_self (by positivity)

/-- The place of the double nearest to a natural number. -/
def placeOfNat (n : ℕ) : ℤ :=
  if n = 0 then 0 else place (nearest (n * 2 ^ 53) (n.log2 + 1)) (n.log2 - 52)

lemma placeOfNat_of_ne_zero (hn : n ≠ 0) :
    placeOfNat n = place (nearest (n * 2 ^ 53) (n.log2 + 1)) (n.log2 - 52) := if_neg hn

lemma nearest_bounds_of_ne_zero (hn : n ≠ 0) :
    2 ^ 52 ≤ nearest (n * 2 ^ 53) (n.log2 + 1) ∧ nearest (n * 2 ^ 53) (n.log2 + 1) ≤ 2 ^ 53 :=
  nearest_bounds (by positivity) (by rw [log2_mul_pow hn]; omega)

lemma placeOfNat_nonneg (n : ℕ) : 0 ≤ placeOfNat n := by
  unfold placeOfNat place
  split_ifs <;> omega

/-- A greater number does not get a smaller double. -/
lemma placeOfNat_mono (h : m ≤ n) : placeOfNat m ≤ placeOfNat n := by
  rcases Nat.eq_zero_or_pos m with rfl | hm
  · exact placeOfNat_nonneg n
  have hn : n ≠ 0 := by omega
  rw [placeOfNat_of_ne_zero hm.ne', placeOfNat_of_ne_zero hn]
  have hlog : m.log2 ≤ n.log2 := (Nat.le_log2 hn).2 ((Nat.log2_self_le hm.ne').trans h)
  rcases hlog.lt_or_eq with hlt | heq
  · -- The greater number has more bits, and the smaller one carries over by one bit at most.
    have hm' := (nearest_bounds_of_ne_zero hm.ne').2
    have hn' := (nearest_bounds_of_ne_zero hn).1
    unfold place
    omega
  · have hle := nearest_mono (Nat.mul_le_mul_right (2 ^ 53) h) (n.log2 + 1)
    rw [heq]
    unfold place
    omega

/-- One as a double. -/
lemma unpack_one : (Float.Model.ofBits 0x3ff0000000000000).unpack =
    .finite .positive (2 ^ 52) (-52) (Nat.two_pow_pos 52) := rfl

/-- A product with one is exact. -/
lemma mul_one_eq (h : Normal m e) (hlt : e < 971) :
    ∃ M E, ∃ h' : Normal M E, place M E = place m e ∧
      Float.Model.mul (.pack (.finite .positive m e h.pos)) (.ofBits 0x3ff0000000000000) =
        .pack (.finite .positive M E h'.pos) := by
  have hlog : (m * 2 ^ 52).log2 = 52 + 52 := by
    rw [log2_mul_pow h.pos.ne', (Nat.log2_eq_iff h.pos.ne').2 ⟨h.le, h.lt⟩]
  have hexponent : e + -52 + (52 : ℕ) = e := by push_cast; ring
  obtain ⟨M, E, h', hplace, hround⟩ := roundWithAccuracy_eq (e := e + -52) .positive
    (mul_ne_zero h.pos.ne' (by norm_num)) hlog (by rw [hexponent]; exact h.least)
    (by rw [hexponent]; exact hlt)
  rw [hexponent, nearest_mul_pow] at hplace
  refine ⟨M, E, h', hplace, ?_⟩
  rw [Float.Model.mul, unpack_pack .positive h, unpack_one]
  exact congrArg Float.Model.pack hround

/-- A number of at most fifty-three bits is its own nearest double. -/
lemma place_mul_pow (hn : n ≠ 0) (hk : n.log2 + k = 52) : place (n * 2 ^ k) (-k) = placeOfNat n := by
  have hshift : n * 2 ^ 53 = n * 2 ^ k * 2 ^ (n.log2 + 1) := by
    rw [mul_assoc, ← pow_add, show k + (n.log2 + 1) = 53 by omega]
  rw [placeOfNat_of_ne_zero hn, hshift, nearest_mul_pow]
  congr 1
  omega

/-- A number of at most fifty-three bits is rounded after it has been shifted to that many bits. -/
lemma normalize_eq (hn : n ≠ 0) (hk : n.log2 + k = 52) :
    UnpackedFloat.normalize Format.binary64 n 0 .positive =
      UnpackedFloat.roundWithAccuracy Format.binary64 .positive (n * 2 ^ k) (-k) .exact := by
  have hpositive : compare (n : ℤ) 0 = .gt := Int.compare_eq_gt.2 (by omega)
  have htarget : Format.binary64.targetExponent (Float.Model.totalExponent n 0) = -k := by
    simp only [Format.targetExponent, Float.Model.totalExponent, Format.mantissaBits,
      Format.minExponent]
    norm_num
    omega
  have hdecrease : UnpackedFloat.decreaseExponent n 0 (-k) = (n * 2 ^ k, -(k : ℤ)) := by
    have hshift : (0 - -(k : ℤ)).toNat = k := by omega
    rw [UnpackedFloat.decreaseExponent, hshift, Nat.shiftLeft_eq, zero_sub]
  rw [UnpackedFloat.normalize, hpositive]
  show UnpackedFloat.round Format.binary64 .positive n 0 = _
  rw [UnpackedFloat.round, htarget, hdecrease]

/-- A number below `2 ^ 53` is a double. -/
lemma exists_ofUInt64 (hn : n ≠ 0) (hlt : n < 2 ^ 53) :
    ∃ m e, ∃ h : Normal m e, place m e = placeOfNat n ∧ e < 971 ∧
      Float.Model.ofUInt64 n.toUInt64 = .pack (.finite .positive m e h.pos) := by
  have hlog : n.log2 < 53 := (Nat.log2_lt hn).2 hlt
  obtain ⟨k, hk⟩ : ∃ k, n.log2 + k = 52 := ⟨52 - n.log2, by omega⟩
  have hlog' : (n * 2 ^ k).log2 = 52 + 0 := by rw [log2_mul_pow hn, hk]
  obtain ⟨m, e, h, hplace, hround⟩ := roundWithAccuracy_eq (e := -k) .positive
    (mul_ne_zero hn (by positivity)) hlog' (by push_cast; omega) (by push_cast; omega)
  rw [nearest_zero, Nat.cast_zero, add_zero] at hplace
  have hexponent : e < 971 := by
    -- The significand that was rounded has fifty-three bits already, so nothing carries over.
    have hm := h.le
    have hbound := (nearest_bounds (by positivity) hlog').2
    rw [nearest_zero] at hbound
    unfold place at hplace
    omega
  refine ⟨m, e, h, hplace.trans (place_mul_pow hn hk), hexponent, ?_⟩
  have hvalue : n.toUInt64.toNat = n := by simp; omega
  show Float.Model.pack (UnpackedFloat.normalize Format.binary64 n.toUInt64.toNat 0 .positive) = _
  rw [hvalue, normalize_eq hn hk, hround]

/-- The double of a natural number of sixty-four bits. -/
lemma exists_toModel_ofNat (hn : n ≠ 0) (hlt : n < 2 ^ 64) :
    ∃ m e, ∃ h : Normal m e, place m e = placeOfNat n ∧
      (Float.ofNat n).toModel = .pack (.finite .positive m e h.pos) := by
  rw [Float.ofNat]
  show ∃ m e, ∃ h : Normal m e, place m e = placeOfNat n ∧
    (Float.ofScientific n false 0).toModel = .pack (.finite .positive m e h.pos)
  unfold Float.ofScientific
  -- Small numbers are converted as words and multiplied by one; others are rounded once.
  by_cases hsmall : n < 2 ^ 53
  · rw [dif_pos ⟨hsmall, by omega⟩]
    obtain ⟨m, e, h, hplace, he, hof⟩ := exists_ofUInt64 hn hsmall
    obtain ⟨M, E, h', hplace', hmul⟩ := mul_one_eq h he
    refine ⟨M, E, h', hplace'.trans hplace, ?_⟩
    rw [← hmul, ← hof]
    rfl
  · rw [dif_neg fun h => hsmall h.1]
    have hlog : (n * 2 ^ 53).log2 = 52 + (n.log2 + 1) := by
      rw [log2_mul_pow hn]
      omega
    have hlt' : n.log2 < 64 := (Nat.log2_lt hn).2 hlt
    obtain ⟨m, e, h, hplace, hround⟩ := roundWithAccuracy_eq (e := -53) .positive
      (mul_ne_zero hn (by norm_num)) hlog (by omega) (by omega)
    refine ⟨m, e, h, ?_, ?_⟩
    · rw [hplace, placeOfNat_of_ne_zero hn]
      congr 1
      push_cast
      ring
    · show Float.Model.pack (UnpackedFloat.ofScientific Format.binary64 n 0) = _
      refine congrArg Float.Model.pack ?_
      rw [UnpackedFloat.ofScientific, dif_neg hn, if_neg (by norm_num),
        if_neg (by push_cast; omega), if_pos le_rfl]
      rw [UnpackedFloat.mul, Nat.shiftLeft_eq]
      show UnpackedFloat.roundWithAccuracy Format.binary64 .positive (n * 2 ^ 53 * 1)
        (-53 + 0) .exact = _
      rw [mul_one, add_zero]
      exact hround

/-! ## Machine integers -/

variable {x y : Binary64} {i j : Int64}

/-- A pattern is told by its rank. -/
lemma rank_eq (x : Binary64) : x.rank =
    if (x.bits.toNat : ℤ) < 2 ^ 63 then (x.bits.toNat : ℤ) else 2 ^ 63 - 1 - x.bits.toNat := by
  have hlt : x.bits.toNat < 2 ^ 64 := x.bits.toNat_lt
  have hpow : Nat.pow 2 63 = 2 ^ 63 := rfl
  simp only [rank, signed, magnitude, hpow, decide_eq_true_eq]
  split_ifs <;> omega

lemma rank_injective : Function.Injective rank := by
  intro x y h
  rw [rank_eq, rank_eq] at h
  obtain ⟨x⟩ := x
  obtain ⟨y⟩ := y
  refine congrArg mk (UInt64.toNat_inj.1 ?_)
  dsimp only at h
  split_ifs at h <;> omega

/-- The rank of a packed double. -/
lemma rank_pack (s : Sign) (h : Normal m e) :
    (ofFloat (.ofModel (.pack (.finite s m e h.pos)))).rank =
      match s with
      | .positive => place m e
      | .negative => -place m e - 1 := by
  have hbits : ((ofFloat (.ofModel (.pack (.finite s m e h.pos)))).bits.toNat : ℤ) =
      signBit s + place m e := toNat_pack s h
  have hplace : 0 ≤ place m e ∧ place m e < 2 ^ 63 := by
    have ⟨_, _, _, _⟩ := h
    unfold place
    omega
  rw [rank_eq, hbits]
  cases s with
  | positive =>
    rw [signBit, if_pos (by omega), zero_add]
  | negative =>
    rw [signBit, if_neg (by omega)]
    ring

/-- The rank of an integer of at most sixty-four bits. -/
lemma rank_ofInt {k : ℤ} (hk : k.natAbs < 2 ^ 64) :
    (ofFloat (.ofInt k)).rank = if 0 ≤ k then placeOfNat k.natAbs else -placeOfNat k.natAbs - 1 := by
  rcases Nat.eq_zero_or_pos k.natAbs with hzero | hpos
  · obtain rfl : k = 0 := Int.natAbs_eq_zero.1 hzero
    rfl
  obtain ⟨m, e, h, hplace, hmodel⟩ := exists_toModel_ofNat hpos.ne' hk
  cases k with
  | ofNat n =>
    have hfloat : Float.ofInt (Int.ofNat n) = .ofModel (.pack (.finite .positive m e h.pos)) :=
      congrArg Float.ofModel hmodel
    rw [hfloat, rank_pack .positive h, hplace]
    exact (if_pos (Int.natCast_nonneg n)).symm
  | negSucc n =>
    have hneg : (Float.Model.pack (.finite .positive m e h.pos)).neg =
        .pack (.finite .negative m e h.pos) := by
      rw [Float.Model.neg, unpack_pack .positive h]
      rfl
    have hfloat : Float.ofInt (Int.negSucc n) = .ofModel (.pack (.finite .negative m e h.pos)) := by
      rw [← hneg, ← hmodel]
      rfl
    rw [hfloat, rank_pack .negative h, hplace, if_neg (by omega)]

/-- **A greater machine integer does not become a lesser double.** -/
lemma rank_ofInt64_mono (h : i.toInt ≤ j.toInt) : (ofInt64 i).rank ≤ (ofInt64 j).rank := by
  have hi := i.le_toInt
  have hj := j.toInt_lt
  rw [ofInt64, ofInt64, rank_ofInt (by omega), rank_ofInt (by have := j.le_toInt; omega)]
  have hi' := placeOfNat_nonneg i.toInt.natAbs
  have hj' := placeOfNat_nonneg j.toInt.natAbs
  -- Below zero the places are mirrored, so a greater size has a lesser rank there.
  split_ifs with hi0 hj0 hj0
  · exact placeOfNat_mono (by omega)
  · omega
  · omega
  · have hle := placeOfNat_mono (m := j.toInt.natAbs) (n := i.toInt.natAbs) (by omega)
    omega

end TermGraph.Binary64
