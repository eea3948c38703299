import Journey.Cost.Units
import Journey.Proofs.Cost.Binary64

/-!
# Whole bounds through binary64 arithmetic

Products and sums of kept numbers are rounded once, from a value that is exact, so
bounds multiply and add as those of exact values do, as long as they stay whole
numbers of 53 bits (`lowerBound_mul`, `upperBound_mul`, `lowerBound_add`,
`upperBound_add`). Without such a limit a number that is not below zero stays so
(`NotBelow`), though it can become infinite, or zero times infinite.

`nearestInt` reads the bits of a number. `nearestInt_eq` says the same by what is
unpacked, which is where the bounds are known.
-/

namespace Journey.Binary64

open Float.Model Float.Model.UnpackedFloat

theorem value_mul (m m' : ℕ) (e e' : ℤ) : value (m * m') (e + e') = value m e * value m' e' := by
  rw [value, value, value, zpow_add₀ two_ne_zero]
  push_cast
  ring

theorem value_add (m m' : ℕ) (e : ℤ) : value (m + m') e = value m e + value m' e := by
  rw [value, value, value]
  push_cast
  ring

/-- A mantissa moved up by as many bits as the exponent is moved down. -/
theorem value_shiftLeft (m d : ℕ) (e : ℤ) : value (m <<< d) (e - d) = value m e := by
  rw [value, value, Nat.shiftLeft_eq, zpow_sub₀ two_ne_zero, zpow_natCast]
  push_cast
  field_simp

theorem value_shiftLeft_sub (m : ℕ) {e e' : ℤ} (h : e' ≤ e) :
    value (m <<< (e - e').toNat) e' = value m e := by
  have hshift := value_shiftLeft m (e - e').toNat e
  rwa [Int.toNat_of_nonneg (Int.sub_nonneg_of_le h), Int.sub_sub_self] at hshift

theorem target_shiftLeft {m : ℕ} (hm : m ≠ 0) (d : ℕ) (e : ℤ) :
    target (m <<< d) (e - d) = target m e := by
  have hlog : (m <<< d).log2 = m.log2 + d := by
    obtain ⟨hlow, hhigh⟩ := (Nat.log2_eq_iff hm).mp rfl
    have hpos : m <<< d ≠ 0 := by
      rw [Nat.shiftLeft_eq]
      positivity
    rw [Nat.log2_eq_iff hpos, Nat.shiftLeft_eq]
    constructor
    · rw [pow_add]
      exact Nat.mul_le_mul_right _ hlow
    · rw [Nat.add_right_comm, pow_add]
      exact Nat.mul_lt_mul_of_pos_right hhigh (Nat.two_pow_pos d)
  unfold target
  rw [hlog]
  omega

/-! ## Rounding -/

section round

variable {m k : ℕ} {e : ℤ}

/-- A number that is normalized is a mantissa at an exponent no greater than its target. -/
theorem normalize_eq (hm : m ≠ 0) (e : ℤ) (s : Sign) :
    ∃ m' e', m' ≠ 0 ∧ e' ≤ target m' e' ∧ value m' e' = value m e ∧
      UnpackedFloat.normalize .binary64 m e s =
        roundWithAccuracy .binary64 .positive m' e' .exact := by
  have hcompare : compare (m : ℤ) 0 = .gt := by
    rw [compare_gt_iff_gt]
    omega
  let d := (e - target m e).toNat
  refine ⟨m <<< d, e - d, ?_, ?_, value_shiftLeft m d e, ?_⟩
  · rw [Nat.shiftLeft_eq]
    positivity
  · rw [target_shiftLeft hm]
    omega
  · unfold UnpackedFloat.normalize
    rw [hcompare]
    rfl

theorem kept_normalize (hm : m ≠ 0) (e : ℤ) (s : Sign) :
    Kept (UnpackedFloat.normalize .binary64 m e s) := by
  obtain ⟨m', e', hm', he', _, heq⟩ := normalize_eq hm e s
  rw [heq]
  exact kept_round hm' he'

theorem lowerBound_normalize (hm : m ≠ 0) (s : Sign) (hk : k ≤ 2 ^ 53) (h : (k : ℚ) ≤ value m e) :
    LowerBound k (UnpackedFloat.normalize .binary64 m e s) := by
  obtain ⟨m', e', hm', he', hvalue, heq⟩ := normalize_eq hm e s
  rw [heq]
  exact lowerBound_round hm' he' hk (by rwa [hvalue])

theorem upperBound_normalize (hm : m ≠ 0) (s : Sign) (hk : k < 2 ^ 53) (h : value m e ≤ k) :
    UpperBound k (UnpackedFloat.normalize .binary64 m e s) := by
  obtain ⟨m', e', hm', he', hvalue, heq⟩ := normalize_eq hm e s
  rw [heq]
  exact upperBound_round hm' he' hk (by rwa [hvalue])

end round

/-! ## Products -/

section operations

variable {u v : UnpackedFloat} {a b : ℕ}

theorem lowerBound_cases {k : ℕ} (h : LowerBound k u) :
    u = .infinity .positive ∨ (∃ s, u = .zero s ∧ k = 0) ∨
      ∃ m e hm, u = .finite .positive m e hm ∧ (k : ℚ) ≤ value m e := by
  cases u with
  | infinity s =>
      cases s with
      | positive => exact .inl rfl
      | negative => exact h.elim
  | notANumber => exact h.elim
  | zero s => exact .inr (.inl ⟨s, rfl, h⟩)
  | finite s m e hm =>
      cases s with
      | positive => exact .inr (.inr ⟨m, e, hm, rfl, h⟩)
      | negative => exact h.elim

theorem upperBound_cases {k : ℕ} (h : UpperBound k u) :
    (∃ s, u = .zero s) ∨ ∃ m e hm, u = .finite .positive m e hm ∧ value m e ≤ k := by
  cases u with
  | infinity s => exact h.elim
  | notANumber => exact h.elim
  | zero s => exact .inl ⟨s, rfl⟩
  | finite s m e hm =>
      cases s with
      | positive => exact .inr ⟨m, e, hm, rfl, h⟩
      | negative => exact h.elim

/-- A product of canonical mantissas has bits to spare, unless it is far below the
least exponent. -/
theorem le_target_mul {m m' : ℕ} {e e' : ℤ} (h : Canonical m e) (h' : Canonical m' e')
    (hm : 0 < m) (hm' : 0 < m') : e + e' ≤ target (m * m') (e + e') := by
  unfold target
  by_cases hfull : 2 ^ 52 ≤ m * m'
  · have hlog := (Nat.le_log2 (by positivity)).mpr hfull
    omega
  · have hle : m ≤ m * m' := Nat.le_mul_of_pos_right m hm'
    have hle' : m' ≤ m * m' := Nat.le_mul_of_pos_left m' hm
    have := h.full
    have := h'.full
    omega

theorem kept_mul (hu : Kept u) (hv : Kept v) : Kept (mul .binary64 u v) := by
  cases u <;> cases v <;> first | trivial | skip
  rename_i s m e hm s' m' e' hm'
  exact kept_round (by positivity) (le_target_mul hu hv hm hm')

/-- Bounds multiply, so long as nothing infinite meets what may be zero. -/
theorem lowerBound_mul (hu : Kept u) (hv : Kept v) (ha : LowerBound a u) (hb : LowerBound b v)
    (hab : a * b ≤ 2 ^ 53) (hfinite : u.isFinite = true ∨ 0 < b)
    (hfinite' : v.isFinite = true ∨ 0 < a) : LowerBound (a * b) (mul .binary64 u v) := by
  rcases lowerBound_cases ha with rfl | ⟨s, rfl, rfl⟩ | ⟨m, e, hm, rfl, hle⟩ <;>
    rcases lowerBound_cases hb with rfl | ⟨s', rfl, rfl⟩ | ⟨m', e', hm', rfl, hle'⟩
  · trivial
  · simp [UnpackedFloat.isFinite] at hfinite
  · trivial
  · simp [UnpackedFloat.isFinite] at hfinite'
  · exact Nat.zero_mul 0
  · exact Nat.zero_mul b
  · trivial
  · exact Nat.mul_zero a
  · refine lowerBound_round (by positivity) (le_target_mul hu hv hm hm') hab ?_
    rw [value_mul]
    push_cast
    exact mul_le_mul hle hle' (Nat.cast_nonneg b) ((Nat.cast_nonneg a).trans hle)

theorem upperBound_mul (hu : Kept u) (hv : Kept v) (ha : UpperBound a u) (hb : UpperBound b v)
    (hab : a * b < 2 ^ 53) : UpperBound (a * b) (mul .binary64 u v) := by
  rcases upperBound_cases ha with ⟨s, rfl⟩ | ⟨m, e, hm, rfl, hle⟩ <;>
    rcases upperBound_cases hb with ⟨s', rfl⟩ | ⟨m', e', hm', rfl, hle'⟩
  · trivial
  · trivial
  · trivial
  · refine upperBound_round (by positivity) (le_target_mul hu hv hm hm') hab ?_
    rw [value_mul]
    push_cast
    refine mul_le_mul hle hle' ?_ (Nat.cast_nonneg a)
    unfold value
    positivity

/-! ## Sums -/

/-- Two numbers are added at the lesser of their exponents. -/
theorem add_finite {m m' : ℕ} (e e' : ℤ) (hm : 0 < m) (hm' : 0 < m') :
    ∃ sum least, sum ≠ 0 ∧ value sum least = value m e + value m' e' ∧
      add .binary64 (.finite .positive m e hm) (.finite .positive m' e' hm') =
        UnpackedFloat.normalize .binary64 (sum : ℕ) least .positive := by
  refine ⟨m <<< (e - min e e').toNat + m' <<< (e' - min e e').toNat, min e e', ?_, ?_, ?_⟩
  · rw [Nat.shiftLeft_eq]
    positivity
  · rw [value_add, value_shiftLeft_sub m (min_le_left e e'),
      value_shiftLeft_sub m' (min_le_right e e')]
  · rfl

theorem kept_add (hu : Kept u) (hv : Kept v) (ha : LowerBound a u) (hb : LowerBound b v) :
    Kept (add .binary64 u v) := by
  rcases lowerBound_cases ha with rfl | ⟨s, rfl, rfl⟩ | ⟨m, e, hm, rfl, hle⟩ <;>
    rcases lowerBound_cases hb with rfl | ⟨s', rfl, rfl⟩ | ⟨m', e', hm', rfl, hle'⟩
  · trivial
  · trivial
  · trivial
  · trivial
  · cases s <;> cases s' <;> trivial
  · exact hv
  · trivial
  · exact hu
  · obtain ⟨sum, least, hsum, _, heq⟩ := add_finite e e' hm hm'
    rw [heq]
    exact kept_normalize hsum least .positive

theorem lowerBound_add (ha : LowerBound a u) (hb : LowerBound b v) (hab : a + b ≤ 2 ^ 53) :
    LowerBound (a + b) (add .binary64 u v) := by
  rcases lowerBound_cases ha with rfl | ⟨s, rfl, rfl⟩ | ⟨m, e, hm, rfl, hle⟩ <;>
    rcases lowerBound_cases hb with rfl | ⟨s', rfl, rfl⟩ | ⟨m', e', hm', rfl, hle'⟩
  · trivial
  · trivial
  · trivial
  · trivial
  · cases s <;> cases s' <;> rfl
  · rw [Nat.zero_add]
    exact hle'
  · trivial
  · exact hle
  · obtain ⟨sum, least, hsum, hvalue, heq⟩ := add_finite e e' hm hm'
    rw [heq]
    refine lowerBound_normalize hsum .positive hab ?_
    rw [hvalue, Nat.cast_add]
    exact add_le_add hle hle'

theorem upperBound_add (ha : UpperBound a u) (hb : UpperBound b v) (hab : a + b < 2 ^ 53) :
    UpperBound (a + b) (add .binary64 u v) := by
  rcases upperBound_cases ha with ⟨s, rfl⟩ | ⟨m, e, hm, rfl, hle⟩ <;>
    rcases upperBound_cases hb with ⟨s', rfl⟩ | ⟨m', e', hm', rfl, hle'⟩
  · cases s <;> cases s' <;> trivial
  · exact hle'.trans (by exact_mod_cast Nat.le_add_left b a)
  · exact hle.trans (by exact_mod_cast Nat.le_add_right a b)
  · obtain ⟨sum, least, hsum, hvalue, heq⟩ := add_finite e e' hm hm'
    rw [heq]
    refine upperBound_normalize hsum .positive hab ?_
    rw [hvalue, Nat.cast_add]
    exact add_le_add hle hle'

/-! ## Numbers that are not negative -/

/-- The number is not below zero, if it is a number. -/
def NotBelow (u : UnpackedFloat) : Prop := u = .notANumber ∨ LowerBound 0 u

theorem kept_add_of_notBelow (hu : Kept u) (hv : Kept v) (ha : NotBelow u)
    (hb : NotBelow v) : Kept (add .binary64 u v) := by
  rcases ha with rfl | ha
  · cases v <;> trivial
  · rcases hb with rfl | hb
    · cases u <;> trivial
    · exact kept_add hu hv ha hb

theorem notBelow_add (ha : NotBelow u) (hb : NotBelow v) :
    NotBelow (add .binary64 u v) := by
  rcases ha with rfl | ha
  · left
    cases v <;> rfl
  · rcases hb with rfl | hb
    · left
      cases u <;> rfl
    · exact .inr (lowerBound_add ha hb (by omega))

theorem notBelow_pack (hu : Kept u) (h : NotBelow u) : NotBelow (Float.Model.pack u).unpack := by
  rcases h with rfl | h
  · exact .inl rfl
  · exact .inr (lowerBound_pack hu h)

/-- Nothing times infinity is not a number. -/
theorem notBelow_mul (hu : Kept u) (hv : Kept v) (ha : NotBelow u) (hb : NotBelow v) :
    NotBelow (mul .binary64 u v) := by
  rcases ha with rfl | ha
  · left
    cases v <;> rfl
  · rcases hb with rfl | hb
    · left
      cases u <;> rfl
    · rcases lowerBound_cases ha with rfl | ⟨s, rfl, _⟩ | ⟨m, e, hm, rfl, _⟩ <;>
        rcases lowerBound_cases hb with rfl | ⟨s', rfl, _⟩ | ⟨m', e', hm', rfl, _⟩
      · exact .inr trivial
      · exact .inl rfl
      · exact .inr trivial
      · exact .inl rfl
      · exact .inr rfl
      · exact .inr rfl
      · exact .inr trivial
      · exact .inr rfl
      · exact .inr (lowerBound_mul hu hv ha hb (by omega) (.inl rfl) (.inl rfl))

end operations

/-! ## The nearest integer -/

section fields

variable (b : BitVec 64)

theorem toNat_unpackMantissa : (@unpackMantissa .binary64 b).toNat = b.toNat % 2 ^ 52 := by
  rw [unpackMantissa_def, BitVec.extractLsb'_toNat]
  rfl

theorem toNat_unpackExponent :
    (@unpackExponent .binary64 b).toNat = b.toNat / 2 ^ 52 % 2 ^ 11 := by
  rw [unpackExponent_def, BitVec.extractLsb'_toNat, Nat.shiftRight_eq_div_pow]

theorem ofBitVec_unpackSign :
    Sign.ofBitVec (@unpackSign .binary64 b) =
      if 2 ^ 63 ≤ b.toNat then .negative else .positive := by
  have hbit : (@unpackSign .binary64 b).toNat = b.toNat / 2 ^ 63 := by
    rw [unpackSign_def, BitVec.extractLsb'_toNat, Nat.shiftRight_eq_div_pow]
    refine Nat.mod_eq_of_lt ?_
    have := b.isLt
    show b.toNat / 2 ^ 63 < 2
    omega
  have hlt := b.isLt
  unfold Sign.ofBitVec
  by_cases hneg : 2 ^ 63 ≤ b.toNat
  · rw [if_neg, if_pos hneg]
    intro hzero
    rw [hzero] at hbit
    change 0 = b.toNat / 2 ^ 63 at hbit
    omega
  · rw [if_pos, if_neg hneg]
    refine BitVec.eq_of_toNat_eq (hbit.trans ?_)
    show b.toNat / 2 ^ 63 = 0
    omega

end fields

theorem scaledSize_zero (e : ℤ) : scaledSize 0 e = 0 := by
  cases e with
  | ofNat k => exact Nat.zero_mul _
  | negSucc k =>
      show (0 + 2 ^ k) / 2 ^ (k + 1) = 0
      rw [Nat.zero_add]
      exact Nat.div_eq_of_lt (Nat.pow_lt_pow_right Nat.one_lt_two (Nat.lt_succ_self k))

/-- The nearest integer, by the fields of the bits. -/
def nearestOfFields (negative : Bool) (exponent fraction : ℕ) : ℤ :=
  if exponent = 2047 then
    if fraction ≠ 0 then 0 else if negative then minInt else maxInt
  else
    let size :=
      if exponent = 0 then scaledSize fraction (-1074)
      else scaledSize (2 ^ 52 + fraction) (exponent - 1075)
    clampInt (if negative then -size else size)

theorem nearestInt_eq_ofFields (x : Float) : nearestInt x =
    nearestOfFields (decide (2 ^ 63 ≤ x.toBits.toNat)) (x.toBits.toNat / 2 ^ 52 % 2 ^ 11)
      (x.toBits.toNat % 2 ^ 52) :=
  rfl

/-- The nearest integer, by what is unpacked. -/
def nearestOfUnpacked : UnpackedFloat → ℤ
  | .notANumber | .zero _ => 0
  | .infinity .negative => minInt
  | .infinity .positive => maxInt
  | .finite s m e _ => clampInt (s.apply (scaledSize m e))

theorem nearestOfFields_unpack (b : BitVec 64) :
    nearestOfFields (decide (2 ^ 63 ≤ b.toNat)) (b.toNat / 2 ^ 52 % 2 ^ 11) (b.toNat % 2 ^ 52) =
      nearestOfUnpacked (UnpackedFloat.unpack .binary64 b) := by
  unfold UnpackedFloat.unpack
  simp only [ofBitVec_unpackSign]
  rw [← toNat_unpackMantissa, ← toNat_unpackExponent]
  obtain ⟨negative, hnegative⟩ : ∃ negative, decide (2 ^ 63 ≤ b.toNat) = negative := ⟨_, rfl⟩
  have hsign : (if 2 ^ 63 ≤ b.toNat then Sign.negative else .positive) =
      if negative then .negative else .positive := by
    rw [← hnegative]
    simp only [decide_eq_true_eq]
  rw [hsign, hnegative]
  unfold nearestOfFields
  by_cases hinfinite : @unpackExponent .binary64 b = -1#11
  · rw [if_pos hinfinite, hinfinite]
    by_cases hzero : @unpackMantissa .binary64 b = 0#52
    · rw [if_pos hzero, hzero]
      cases negative <;> rfl
    · have hne : (@unpackMantissa .binary64 b).toNat ≠ 0 :=
        fun h => hzero (BitVec.eq_of_toNat_eq h)
      rw [if_neg hzero]
      exact if_pos hne
  · have hfinite : (@unpackExponent .binary64 b).toNat ≠ 2047 :=
      fun h => hinfinite (BitVec.eq_of_toNat_eq h)
    rw [if_neg hfinite, if_neg hinfinite]
    -- the size of a number is not to be computed from here on
    have hsize : ∀ (size : ℕ), clampInt (if negative then -(size : ℤ) else size) =
        clampInt ((if negative then Sign.negative else .positive).apply size) := by
      intro size
      cases negative <;> rfl
    by_cases hleast : @unpackExponent .binary64 b = 0#11
    · have hleast' : (@unpackExponent .binary64 b).toNat = 0 := congrArg BitVec.toNat hleast
      rw [if_pos hleast]
      simp only [if_pos hleast', hsize]
      by_cases hzero : @unpackMantissa .binary64 b = 0#52
      · have hzero' : (@unpackMantissa .binary64 b).toNat = 0 :=
          congrArg BitVec.toNat hzero
        rw [dif_pos hzero, hzero', scaledSize_zero]
        cases negative <;> rfl
      · have hexponent : ((@unpackExponent .binary64 b).toNat : ℤ) -
            (Format.binary64.exponentBias + (52 : ℕ)) + 1 = -1074 := by
          rw [hleast']
          rfl
        rw [dif_neg hzero]
        simp only [nearestOfUnpacked, hexponent]
    · have hnormal : (@unpackExponent .binary64 b).toNat ≠ 0 :=
        fun h => hleast (BitVec.eq_of_toNat_eq h)
      rw [if_neg hleast]
      simp only [if_neg hnormal, hsize, nearestOfUnpacked, toNat_one_append]
      rfl

theorem nearestInt_eq (x : Float) : nearestInt x = nearestOfUnpacked x.toModel.unpack :=
  (nearestInt_eq_ofFields x).trans (nearestOfFields_unpack x.toModel.toBits.toBitVec)

theorem le_scaledSize {m k : ℕ} {e : ℤ} (h : (k : ℚ) ≤ value m e) : k ≤ scaledSize m e := by
  cases e with
  | ofNat i =>
      rw [natCast_le_value_iff (i := i) (j := 0) (by simp), pow_zero, mul_one] at h
      exact h
  | negSucc j =>
      rw [natCast_le_value_iff (i := 0) (j := j + 1) (by simp [Int.negSucc_eq]), pow_zero,
        mul_one] at h
      refine (Nat.le_div_iff_mul_le (Nat.two_pow_pos (j + 1))).mpr (h.trans ?_)
      exact Nat.le_add_right m _

theorem scaledSize_le {m k : ℕ} {e : ℤ} (h : value m e ≤ k) : scaledSize m e ≤ k := by
  cases e with
  | ofNat i =>
      rw [value_le_natCast_iff (i := i) (j := 0) (by simp), pow_zero, mul_one] at h
      exact h
  | negSucc j =>
      rw [value_le_natCast_iff (i := 0) (j := j + 1) (by simp [Int.negSucc_eq]), pow_zero,
        mul_one] at h
      refine Nat.le_of_lt_succ ((Nat.div_lt_iff_lt_mul (Nat.two_pow_pos (j + 1))).mpr ?_)
      have hhalf : Nat.pow 2 j < 2 ^ (j + 1) := Nat.pow_lt_pow_right Nat.one_lt_two j.lt_succ_self
      rw [Nat.succ_mul]
      omega

end Journey.Binary64
