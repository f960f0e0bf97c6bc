import TermGraph.Proofs.Meaning.Folding

/-!
# Which integer operations are exact

Sums, products and opposites of machine integers are exact whenever the result is a machine integer
and doubles otherwise.  Powers are too, as long as the exponent has at most thirty-two bits.  Beyond
that the power is a double, although a base of size at most one never leaves the machine integers.

* `Number.IsExact`: what an exact operation returns for the integer `k`.
* `Number.isExact_pow_iff`: the powers with a natural exponent that are exact.
* `Number.isExact_arithmetic`: the four operations.
-/

namespace TermGraph.Number

/-- The integer is the value of a machine integer. -/
def Fits (k : ℤ) : Prop :=
  -2 ^ 63 ≤ k ∧ k < 2 ^ 63

/-- The literal is the machine integer with value `k`, and a double when there is none. -/
structure IsExact (k : ℤ) (n : Number) : Prop where
  /-- A value in the range is kept. -/
  isInt : Fits k → n.IsInt k
  /-- A value beyond the range is not. -/
  float : ¬ Fits k → n.isInt = false

variable {a b m : Int64} {k : ℤ} {n : ℕ}

lemma fits_toInt (m : Int64) : Fits m.toInt :=
  ⟨m.le_toInt, m.toInt_lt⟩

lemma fits_iff : Fits k ↔ Int64.minValue.toInt ≤ k ∧ k ≤ Int64.maxValue.toInt := by
  have hmin : Int64.minValue.toInt = -2 ^ 63 := rfl
  have hmax : Int64.maxValue.toInt = 2 ^ 63 - 1 := rfl
  rw [Fits, hmin, hmax]
  omega

lemma word?_eq_none_iff : word? k = none ↔ ¬ Fits k := by
  rw [word?, fits_iff]
  split <;> simp_all

/-- The literal that an operation returns after it has checked the exact result. -/
lemma isExact_word? (k : ℤ) (x : Binary64) :
    IsExact k (match word? k with | some m => .int m | none => .float x) := by
  cases hw : word? k with
  | some m =>
    have hm := toInt_word? hw
    exact ⟨fun _ => ⟨m, rfl, hm⟩, fun hk => absurd (hm ▸ fits_toInt m) hk⟩
  | none => exact ⟨fun hk => absurd hk (word?_eq_none_iff.1 hw), fun _ => rfl⟩

lemma isExact_add (a b : Int64) : IsExact (a.toInt + b.toInt) (add (.int a) (.int b)) :=
  isExact_word? _ _

lemma isExact_mul (a b : Int64) : IsExact (a.toInt * b.toInt) (mul (.int a) (.int b)) :=
  isExact_word? _ _

lemma isExact_neg (a : Int64) : IsExact (-a.toInt) (neg (.int a)) :=
  isExact_word? _ _

/-! ## Powers -/

/-- A base of size two or more leaves the range before its sixty-fourth power. -/
lemma not_fits_pow (ha : 2 ≤ k.natAbs) (hn : 64 ≤ n) : ¬ Fits (k ^ n) := by
  intro hfits
  have hsize : 2 ^ 64 ≤ (k ^ n).natAbs := by
    rw [Int.natAbs_pow]
    calc 2 ^ 64 ≤ 2 ^ n := Nat.pow_le_pow_right (by norm_num) hn
      _ ≤ k.natAbs ^ n := Nat.pow_le_pow_left ha n
  unfold Fits at hfits
  omega

/-- Checked powers by repeated multiplication are the exact powers. -/
lemma wordPow?_eq_word? (a : Int64) (n : ℕ) : wordPow? a n = word? (a.toInt ^ n) := by
  unfold wordPow?
  split
  · rename_i ha
    rw [pow_eq_of_natAbs_le_one ha]
  · rename_i ha
    split
    · rfl
    · rename_i hn
      exact (word?_eq_none_iff.2 (not_fits_pow (by omega) (by omega))).symm

/-- The powers of a base of size at most one stay in the range. -/
lemma fits_pow (ha : k.natAbs ≤ 1) : Fits (k ^ n) := by
  have hsize : (k ^ n).natAbs ≤ 1 := by
    rw [Int.natAbs_pow]
    exact pow_le_one₀ (Nat.zero_le _) ha
  unfold Fits
  omega

lemma pow_int_of_lt (hb : 0 ≤ b.toInt) (hlt : b.toInt < 2 ^ 32) :
    IsExact (a.toInt ^ b.toInt.toNat) (pow (.int a) (.int b)) := by
  have hguard : 0 ≤ b.toInt ∧ b.toInt < Int.pow 2 32 := ⟨hb, hlt⟩
  rw [pow, if_pos hguard, wordPow?_eq_word?]
  exact isExact_word? _ _

/-- An exponent of more than thirty-two bits makes every power a double. -/
lemma isInt_pow_of_le (hle : 2 ^ 32 ≤ b.toInt) : (pow (.int a) (.int b)).isInt = false := by
  have hguard : ¬ (0 ≤ b.toInt ∧ b.toInt < Int.pow 2 32) := fun h => absurd h.2 (not_lt.2 hle)
  rw [pow, if_neg hguard]
  rfl

/-- The powers with a natural exponent that are exact: all but those of `-1`, `0` and `1` whose
exponent has more than thirty-two bits. -/
lemma isExact_pow_iff (hb : 0 ≤ b.toInt) :
    IsExact (a.toInt ^ b.toInt.toNat) (pow (.int a) (.int b)) ↔
      b.toInt < 2 ^ 32 ∨ 2 ≤ a.toInt.natAbs := by
  constructor
  · intro h
    by_contra hlarge
    obtain ⟨hle, ha⟩ : 2 ^ 32 ≤ b.toInt ∧ a.toInt.natAbs ≤ 1 := by omega
    obtain ⟨m, hm, -⟩ := h.isInt (fits_pow ha)
    have hfloat := isInt_pow_of_le (a := a) hle
    rw [hm] at hfloat
    cases hfloat
  · intro h
    rcases lt_or_ge b.toInt (2 ^ 32) with hlt | hle
    · exact pow_int_of_lt hb hlt
    · have hout := not_fits_pow (h.resolve_left (by omega)) (n := b.toInt.toNat) (by omega)
      exact ⟨fun hfits => absurd hfits hout, fun _ => isInt_pow_of_le hle⟩

/-! ## All operations -/

/-- Sums, products and opposites of machine integers are exact, and a power with a natural exponent
is unless its base is at most one in size and its exponent has more than thirty-two bits; then it is
a double. -/
theorem isExact_arithmetic (a b : Int64) :
    IsExact (a.toInt + b.toInt) (add (.int a) (.int b)) ∧
    IsExact (a.toInt * b.toInt) (mul (.int a) (.int b)) ∧
    IsExact (-a.toInt) (neg (.int a)) ∧
    (0 ≤ b.toInt →
      (IsExact (a.toInt ^ b.toInt.toNat) (pow (.int a) (.int b)) ↔
        b.toInt < 2 ^ 32 ∨ 2 ≤ a.toInt.natAbs) ∧
      (2 ^ 32 ≤ b.toInt → (pow (.int a) (.int b)).isInt = false)) :=
  ⟨isExact_add a b, isExact_mul a b, isExact_neg a,
    fun hb => ⟨isExact_pow_iff hb, isInt_pow_of_le⟩⟩

/-- The least machine integer is a power of `-2`, and no power of `-1` with an exponent beyond
thirty-two bits is kept. -/
theorem isExact_arithmetic_boundary :
    0 ≤ (63 : Int64).toInt ∧ Fits ((-2 : Int64).toInt ^ 63) ∧
    IsExact ((-2 : Int64).toInt ^ 63) (pow (.int (-2)) (.int 63)) ∧
    0 ≤ (9007199254740993 : Int64).toInt ∧ 2 ^ 32 ≤ (9007199254740993 : Int64).toInt ∧
    (pow (.int (-1)) (.int 9007199254740993)).isInt = false := by
  have hsmall : 0 ≤ (63 : Int64).toInt := by decide
  have hlarge : 0 ≤ (9007199254740993 : Int64).toInt := by decide
  have hbeyond : 2 ^ 32 ≤ (9007199254740993 : Int64).toInt := by decide
  refine ⟨hsmall, fits_iff.2 (by decide), ?_, hlarge, hbeyond, ?_⟩
  · exact ((isExact_arithmetic (-2) 63).2.2.2 hsmall).1.2 (.inl (by decide))
  · exact ((isExact_arithmetic (-1) 9007199254740993).2.2.2 hlarge).2 hbeyond

end TermGraph.Number
