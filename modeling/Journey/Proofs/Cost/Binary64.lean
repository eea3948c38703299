import Mathlib

/-!
# Whole bounds of binary64 numbers

Costs are worked out in binary64, and what is known of them are whole bounds: no
less than so much (`LowerBound`), no more than so much (`UpperBound`). A whole
number of at most 53 bits is a binary64 number, so rounding to nearest cannot
carry a value past it.

* **rounding**: a mantissa that is shifted and rounded stays on its side of such a
  bound (`le_rounded`, `rounded_le`), and so does the number that is made of it
  (`lowerBound_round`, `upperBound_round`);
* **packing**: a number whose mantissa is canonical (`Kept`) comes out of its bits
  as it was put in, or has become infinite (`unpack_pack`). Every number that has
  been packed is kept (`kept_unpack`), and packing spares the bounds
  (`lowerBound_pack`, `upperBound_pack`).
-/

namespace Journey.Binary64

open Float.Model Float.Model.UnpackedFloat

/-! ## Mantissas -/

theorem shiftRight_succ (em : ExtendedMantissa) (n : ℕ) :
    em >>> (n + 1) = (em >>> n).shiftRightOne :=
  rfl

theorem mantissa_shiftRight (em : ExtendedMantissa) (n : ℕ) :
    (em >>> n).mantissa = em.mantissa / 2 ^ n := by
  induction n with
  | zero => exact (Nat.div_one _).symm
  | succ n ih =>
      rw [shiftRight_succ, ExtendedMantissa.shiftRightOne, ih, Nat.div_div_eq_div_mul,
        Nat.pow_succ]

/-- A mantissa shifted by some bits, and rounded to nearest, ties to even. -/
def rounded (m n : ℕ) : ℕ :=
  (ExtendedMantissa.ofMantissaAndAccuracy m .exact >>> n).roundedMantissa

/-- Shifting out zeros leaves no residue. -/
theorem residue_shiftRight {m n : ℕ} (h : 2 ^ n ∣ m) :
    (ExtendedMantissa.ofMantissaAndAccuracy m .exact >>> n).roundBit = false ∧
      (ExtendedMantissa.ofMantissaAndAccuracy m .exact >>> n).stickyBit = false := by
  induction n with
  | zero => exact ⟨rfl, rfl⟩
  | succ n ih =>
      obtain ⟨hround, hsticky⟩ := ih ((pow_dvd_pow 2 n.le_succ).trans h)
      obtain ⟨c, rfl⟩ := h
      have hquotient : 2 ^ (n + 1) * c / 2 ^ n = 2 * c := by
        rw [pow_succ, mul_assoc, Nat.mul_div_cancel_left _ (Nat.two_pow_pos n)]
      rw [shiftRight_succ, ExtendedMantissa.shiftRightOne, mantissa_shiftRight, hround, hsticky]
      show (2 ^ (n + 1) * c / 2 ^ n % 2 != 0) = false ∧ _
      rw [hquotient, Nat.mul_mod_right]
      exact ⟨rfl, rfl⟩

theorem roundedMantissa_mem (em : ExtendedMantissa) :
    em.mantissa ≤ em.roundedMantissa ∧ em.roundedMantissa ≤ em.mantissa + 1 := by
  obtain ⟨m, round, sticky⟩ := em
  cases round <;> cases sticky <;>
    simp only [ExtendedMantissa.roundedMantissa, ExtendedMantissa.accuracy,
      Accuracy.roundToNearestEven] <;> omega

theorem le_rounded {c m n : ℕ} (h : c * 2 ^ n ≤ m) : c ≤ rounded m n := by
  have hfloor : c ≤ m / 2 ^ n := (Nat.le_div_iff_mul_le (Nat.two_pow_pos n)).mpr h
  have hmem := roundedMantissa_mem (ExtendedMantissa.ofMantissaAndAccuracy m .exact >>> n)
  rw [mantissa_shiftRight] at hmem
  exact hfloor.trans hmem.1

theorem rounded_le {c m n : ℕ} (h : m ≤ c * 2 ^ n) : rounded m n ≤ c := by
  have hmantissa := mantissa_shiftRight (ExtendedMantissa.ofMantissaAndAccuracy m .exact) n
  by_cases hdvd : 2 ^ n ∣ m
  · obtain ⟨hround, hsticky⟩ := residue_shiftRight hdvd
    have heq : rounded m n = m / 2 ^ n := by
      unfold rounded ExtendedMantissa.roundedMantissa
      generalize ExtendedMantissa.ofMantissaAndAccuracy m .exact >>> n = em at *
      obtain ⟨mantissa, round, sticky⟩ := em
      cases hround
      cases hsticky
      exact hmantissa
    rw [heq]
    exact Nat.div_le_of_le_mul (by rwa [mul_comm])
  · -- the quotient is not a whole number, so it lies strictly below the bound
    have hne : m ≠ c * 2 ^ n := fun heq => hdvd ⟨c, by rw [heq, mul_comm]⟩
    have hlt : m / 2 ^ n < c := (Nat.div_lt_iff_lt_mul (Nat.two_pow_pos n)).mpr (by omega)
    have hmem := roundedMantissa_mem (ExtendedMantissa.ofMantissaAndAccuracy m .exact >>> n)
    rw [hmantissa] at hmem
    exact hmem.2.trans hlt

/-! ## Values -/

/-- What a mantissa and an exponent stand for. -/
def value (m : ℕ) (e : ℤ) : ℚ := m * 2 ^ e

theorem natCast_le_value_iff {k m i j : ℕ} {e : ℤ} (he : e = i - j) :
    (k : ℚ) ≤ value m e ↔ k * 2 ^ j ≤ m * 2 ^ i := by
  have hvalue : value m e = ((m * 2 ^ i : ℕ) : ℚ) / ((2 ^ j : ℕ) : ℚ) := by
    rw [value, he, zpow_sub₀ two_ne_zero, zpow_natCast, zpow_natCast]
    push_cast
    ring
  rw [hvalue, le_div_iff₀ (by positivity), ← Nat.cast_mul, Nat.cast_le]

theorem value_le_natCast_iff {k m i j : ℕ} {e : ℤ} (he : e = i - j) :
    value m e ≤ k ↔ m * 2 ^ i ≤ k * 2 ^ j := by
  have hvalue : value m e = ((m * 2 ^ i : ℕ) : ℚ) / ((2 ^ j : ℕ) : ℚ) := by
    rw [value, he, zpow_sub₀ two_ne_zero, zpow_natCast, zpow_natCast]
    push_cast
    ring
  rw [hvalue, div_le_iff₀ (by positivity), ← Nat.cast_mul, Nat.cast_le]

/-- A mantissa as it is kept: full, unless the exponent is the least. -/
structure Canonical (m : ℕ) (e : ℤ) : Prop where
  lt : m < 2 ^ 53
  least : -1074 ≤ e
  full : 2 ^ 52 ≤ m ∨ e = -1074

/-- The exponent that a mantissa is rounded to. -/
def target (m : ℕ) (e : ℤ) : ℤ := max (m.log2 + 1 + e - 53) (-1074)

theorem shiftToTargetExponent_eq (m : ℕ) (e : ℤ) (a : Accuracy) :
    shiftToTargetExponent .binary64 m e a = shiftToExponent m e a (target m e) :=
  rfl

/-- What a mantissa and an exponent are rounded to, before a carry. -/
def nearest (m : ℕ) (e : ℤ) : ℕ := rounded m (target m e - e).toNat

section nearest

variable {m n : ℕ} {e : ℤ}

/-- Rounding gives a full mantissa, or one at the least exponent. -/
theorem nearest_mem (hm : m ≠ 0) (he : e ≤ target m e) :
    nearest m e ≤ 2 ^ 53 ∧ (2 ^ 52 ≤ nearest m e ∨ target m e = -1074) := by
  obtain ⟨n, hn⟩ := Int.eq_ofNat_of_zero_le (Int.sub_nonneg_of_le he)
  have hshift : (target m e - e).toNat = n := by omega
  unfold nearest
  rw [hshift]
  have hlog := Nat.log2_self_le hm
  have hlog' := @Nat.lt_log2_self m
  constructor
  · refine rounded_le (hlog'.le.trans ?_)
    rw [← pow_add]
    refine Nat.pow_le_pow_right Nat.two_pos ?_
    unfold target at hn
    omega
  · rcases eq_or_ne (target m e) (-1074) with hleast | hgreater
    · exact .inr hleast
    · left
      refine le_rounded (le_trans ?_ hlog)
      rw [← pow_add]
      refine Nat.pow_le_pow_right Nat.two_pos ?_
      unfold target at hn hgreater
      omega

/-- Rounding leaves no whole number out that binary64 can hold. -/
theorem natCast_le_nearest {k : ℕ} (hm : m ≠ 0) (he : e ≤ target m e) (hk : k ≤ 2 ^ 53)
    (h : (k : ℚ) ≤ value m e) : (k : ℚ) ≤ value (nearest m e) (target m e) := by
  have hfull := (nearest_mem hm he).2
  obtain ⟨n, hn⟩ := Int.eq_ofNat_of_zero_le (Int.sub_nonneg_of_le he)
  have hnearest : nearest m e = rounded m n := by
    unfold nearest
    rw [hn, Int.toNat_natCast]
  by_cases htarget : target m e ≤ 0
  · obtain ⟨j, hj⟩ := Int.eq_ofNat_of_zero_le (Int.neg_nonneg_of_nonpos htarget)
    rw [natCast_le_value_iff (i := 0) (j := j + n) (by push_cast; omega), pow_zero, mul_one,
      pow_add, ← mul_assoc] at h
    rw [natCast_le_value_iff (i := 0) (j := j) (by push_cast; omega), pow_zero, mul_one, hnearest]
    exact le_rounded h
  · -- the mantissa is full and the unit is more than one
    obtain ⟨i, hi⟩ := Int.eq_ofNat_of_zero_le (by omega : 0 ≤ target m e - 1)
    have hfull' : 2 ^ 52 ≤ nearest m e := by omega
    rw [natCast_le_value_iff (i := i + 1) (j := 0) (by push_cast; omega), pow_zero, mul_one]
    calc k ≤ 2 ^ 52 * 2 ^ 1 := hk
      _ ≤ nearest m e * 2 ^ (i + 1) :=
        Nat.mul_le_mul hfull' (Nat.pow_le_pow_right Nat.two_pos (by omega))

/-- Rounding passes no whole number that binary64 can hold. -/
theorem nearest_le_natCast {k : ℕ} (hm : m ≠ 0) (he : e ≤ target m e) (hk : k < 2 ^ 53)
    (h : value m e ≤ k) : value (nearest m e) (target m e) ≤ k := by
  obtain ⟨n, hn⟩ := Int.eq_ofNat_of_zero_le (Int.sub_nonneg_of_le he)
  have hnearest : nearest m e = rounded m n := by
    unfold nearest
    rw [hn, Int.toNat_natCast]
  by_cases htarget : target m e ≤ 0
  · obtain ⟨j, hj⟩ := Int.eq_ofNat_of_zero_le (Int.neg_nonneg_of_nonpos htarget)
    rw [value_le_natCast_iff (i := 0) (j := j + n) (by push_cast; omega), pow_zero, mul_one,
      pow_add, ← mul_assoc] at h
    rw [value_le_natCast_iff (i := 0) (j := j) (by push_cast; omega), pow_zero, mul_one, hnearest]
    exact rounded_le h
  · -- what needs a unit of more than one is too large
    exfalso
    have hlog := Nat.log2_self_le hm
    have hlarge : ((2 ^ 53 : ℕ) : ℚ) ≤ value m e := by
      rw [natCast_le_value_iff (i := e.toNat) (j := (-e).toNat) (by omega), ← pow_add]
      calc 2 ^ (53 + (-e).toNat) ≤ 2 ^ (m.log2 + e.toNat) := by
            refine Nat.pow_le_pow_right Nat.two_pos ?_
            unfold target at htarget
            omega
        _ = 2 ^ m.log2 * 2 ^ e.toNat := pow_add ..
        _ ≤ m * 2 ^ e.toNat := Nat.mul_le_mul_right _ hlog
    have hle := hlarge.trans h
    rw [Nat.cast_le] at hle
    omega

/-- A carry into one more bit is shifted out without a loss. -/
theorem shiftToTarget_nearest (hm : m ≠ 0) (he : e ≤ target m e) :
    ∃ em e', shiftToTargetExponent .binary64 (nearest m e) (target m e) .exact = (em, e') ∧
      Canonical em.mantissa e' ∧ value em.mantissa e' = value (nearest m e) (target m e) := by
  obtain ⟨hle, hfull⟩ := nearest_mem hm he
  have hleast : -1074 ≤ target m e := le_max_right _ _
  rcases hle.lt_or_eq with hlt | hcarry
  · have hlog : (nearest m e).log2 < 53 := by
      rcases eq_or_ne (nearest m e) 0 with hzero | hpos
      · rw [hzero]
        decide
      · exact (Nat.log2_lt hpos).mpr hlt
    have hshift : (target (nearest m e) (target m e) - target m e).toNat = 0 := by
      unfold target at hleast ⊢
      omega
    refine ⟨ExtendedMantissa.ofMantissaAndAccuracy (nearest m e) .exact, target m e, ?_, ⟨hlt, hleast, hfull⟩, rfl⟩
    rw [shiftToTargetExponent_eq, shiftToExponent, hshift]
    exact Prod.ext rfl (add_zero _)
  · have hshift : (target (nearest m e) (target m e) - target m e).toNat = 1 := by
      rw [hcarry, target, Nat.log2_two_pow]
      omega
    refine ⟨ExtendedMantissa.ofMantissaAndAccuracy (2 ^ 53) .exact >>> 1, target m e + 1, ?_, ?_, ?_⟩
    · rw [shiftToTargetExponent_eq, shiftToExponent, hshift, hcarry]
      rfl
    · rw [mantissa_shiftRight]
      exact ⟨by decide, by omega, .inl (by decide)⟩
    · rw [mantissa_shiftRight, hcarry]
      show value (2 ^ 52) _ = _
      rw [value, value, zpow_add₀ two_ne_zero]
      push_cast
      ring

end nearest

/-! ## Bounds -/

/-- The number is no less than a whole one. An infinite one can be. -/
def LowerBound (k : ℕ) : UnpackedFloat → Prop
  | .infinity .positive => True
  | .zero _ => k = 0
  | .finite .positive m e _ => (k : ℚ) ≤ value m e
  | _ => False

/-- The number is not negative, and no greater than a whole one. -/
def UpperBound (k : ℕ) : UnpackedFloat → Prop
  | .zero _ => True
  | .finite .positive m e _ => value m e ≤ k
  | _ => False

/-- A finite number is kept with a canonical mantissa. -/
def Kept : UnpackedFloat → Prop
  | .finite _ m e _ => Canonical m e
  | _ => True

section round

variable {m k : ℕ} {e : ℤ} {s : Sign}

theorem roundWithAccuracy_eq (s : Sign) (hm : m ≠ 0) (he : e ≤ target m e) :
    ∃ m' e', Canonical m' e' ∧ value m' e' = value (nearest m e) (target m e) ∧
      roundWithAccuracy .binary64 s m e .exact =
        if h : m' = 0 then .zero s else .finite s m' e' (Nat.pos_of_ne_zero h) := by
  obtain ⟨em, e', hcarry, hcanonical, hvalue⟩ := shiftToTarget_nearest hm he
  refine ⟨em.mantissa, e', hcanonical, hvalue, ?_⟩
  have hshift : shiftToTargetExponent .binary64 m e .exact =
      (ExtendedMantissa.ofMantissaAndAccuracy m .exact >>> (target m e - e).toNat, target m e) := by
    rw [shiftToTargetExponent_eq, shiftToExponent]
    exact Prod.ext rfl (by show e + _ = _; omega)
  have hround : roundWithAccuracy .binary64 s m e .exact =
      let final := shiftToTargetExponent .binary64 (nearest m e) (target m e) .exact
      if h : final.1.mantissa = 0 then .zero s
      else .finite s final.1.mantissa final.2 (Nat.pos_of_ne_zero h) := by
    unfold roundWithAccuracy
    rw [hshift]
    rfl
  rw [hround, hcarry]

theorem kept_round (hm : m ≠ 0) (he : e ≤ target m e) :
    Kept (roundWithAccuracy .binary64 s m e .exact) := by
  obtain ⟨m', e', hcanonical, _, hround⟩ := roundWithAccuracy_eq s hm he
  rw [hround]
  split
  · trivial
  · exact hcanonical

theorem lowerBound_round (hm : m ≠ 0) (he : e ≤ target m e) (hk : k ≤ 2 ^ 53)
    (h : (k : ℚ) ≤ value m e) :
    LowerBound k (roundWithAccuracy .binary64 .positive m e .exact) := by
  obtain ⟨m', e', _, hvalue, hround⟩ := roundWithAccuracy_eq .positive hm he
  have hnearest := natCast_le_nearest hm he hk h
  rw [← hvalue] at hnearest
  rw [hround]
  split
  · rename_i hzero
    rw [hzero, value, Nat.cast_zero, zero_mul] at hnearest
    exact Nat.le_zero.mp (by exact_mod_cast hnearest)
  · exact hnearest

theorem upperBound_round (hm : m ≠ 0) (he : e ≤ target m e) (hk : k < 2 ^ 53)
    (h : value m e ≤ k) :
    UpperBound k (roundWithAccuracy .binary64 .positive m e .exact) := by
  obtain ⟨m', e', _, hvalue, hround⟩ := roundWithAccuracy_eq .positive hm he
  have hnearest := nearest_le_natCast hm he hk h
  rw [← hvalue] at hnearest
  rw [hround]
  split
  · trivial
  · exact hnearest

end round

/-! ## Packing -/

theorem toNat_one_append (v : BitVec 52) : (1#1 ++ v).toNat = 2 ^ 52 + v.toNat := by
  rw [BitVec.toNat_append, ← Nat.shiftLeft_add_eq_or_of_lt v.isLt]
  rfl

theorem ofNat_ne_zero {w n : ℕ} (hpos : 0 < n) (hlt : n < 2 ^ w) : BitVec.ofNat w n ≠ 0#w := by
  intro heq
  have h := congrArg BitVec.toNat heq
  rw [BitVec.toNat_ofNat, Nat.mod_eq_of_lt hlt, BitVec.toNat_ofNat, Nat.zero_mod] at h
  omega

theorem unpack_packComponents_normal (s : Sign) {m n : ℕ} (hlow : 2 ^ 52 ≤ m) (hlt : m < 2 ^ 53)
    (hn : 0 < n) (hn' : n < 2047) :
    UnpackedFloat.unpack .binary64
        (packComponents .binary64 s (BitVec.ofNat 11 n) (BitVec.ofNat 52 m)) =
      .finite s m (n - 1075) (by omega) := by
  have hmantissa : (1#1 ++ BitVec.ofNat 52 m).toNat = m := by
    rw [toNat_one_append, BitVec.toNat_ofNat]
    omega
  have hinfinite : BitVec.ofNat 11 n ≠ -1#11 := by
    intro heq
    have h := congrArg BitVec.toNat heq
    rw [BitVec.toNat_ofNat, Nat.mod_eq_of_lt (by omega)] at h
    have hones : (-1#11).toNat = 2047 := rfl
    omega
  have hnormal : BitVec.ofNat 11 n ≠ 0#11 := ofNat_ne_zero hn (by omega)
  unfold UnpackedFloat.unpack
  simp only [unpackMantissa_packComponents, unpackExponent_packComponents,
    unpackSign_packComponents, Sign.ofBitVec_toBitVec]
  rw [if_neg hinfinite, if_neg hnormal, UnpackedFloat.finite.injEq]
  refine ⟨rfl, hmantissa, ?_⟩
  rw [BitVec.toNat_ofNat, Nat.mod_eq_of_lt (by omega)]
  show (n : ℤ) - (1023 + 52) = _
  omega

theorem unpack_packComponents_subnormal (s : Sign) {m : ℕ} (hm : 0 < m) (hlt : m < 2 ^ 52) :
    UnpackedFloat.unpack .binary64 (packComponents .binary64 s 0#11 (BitVec.ofNat 52 m)) =
      .finite s m (-1074) hm := by
  have hmantissa : (BitVec.ofNat 52 m).toNat = m := by
    rw [BitVec.toNat_ofNat, Nat.mod_eq_of_lt hlt]
  unfold UnpackedFloat.unpack
  simp only [unpackMantissa_packComponents, unpackExponent_packComponents,
    unpackSign_packComponents, Sign.ofBitVec_toBitVec]
  rw [if_neg (by decide), if_pos trivial, dif_neg (ofNat_ne_zero hm hlt), UnpackedFloat.finite.injEq]
  exact ⟨rfl, hmantissa, rfl⟩

/-- Packing keeps what is canonical, or lets it overflow. -/
theorem unpack_pack_finite (s : Sign) {m : ℕ} {e : ℤ} (hm : 0 < m) (h : Canonical m e) :
    UnpackedFloat.unpack .binary64 (UnpackedFloat.pack .binary64 (.finite s m e hm)) =
      if 972 ≤ e then .infinity s else .finite s m e hm := by
  obtain ⟨hlt, hleast, hfull⟩ := h
  show UnpackedFloat.unpack .binary64 (if 2 ^ 11 ≤ (e + 1023 + 52).toNat + 1 then _
    else if m.log2 + 1 = 53 then _ else _) = _
  by_cases hlarge : 972 ≤ e
  · rw [if_pos (by omega), if_pos hlarge]
    cases s <;> rfl
  · rw [if_neg (by omega), if_neg hlarge]
    by_cases hnormal : 2 ^ 52 ≤ m
    · have hlog : m.log2 + 1 = 53 := by
        have hlow := (Nat.le_log2 (by omega)).mpr hnormal
        have hhigh := (Nat.log2_lt (by omega)).mpr hlt
        omega
      rw [if_pos hlog]
      show UnpackedFloat.unpack .binary64 (packComponents .binary64 s
        (BitVec.ofNat 11 (e + 1023 + 52).toNat) (BitVec.ofNat 52 m)) = _
      rw [unpack_packComponents_normal s hnormal hlt (by omega) (by omega),
        UnpackedFloat.finite.injEq]
      exact ⟨rfl, rfl, by omega⟩
    · have hlog : m.log2 + 1 ≠ 53 := by
        have hhigh := (Nat.log2_lt (by omega)).mpr (Nat.lt_of_not_le hnormal)
        omega
      obtain rfl : e = -1074 := by omega
      rw [if_neg hlog]
      exact unpack_packComponents_subnormal s hm (Nat.lt_of_not_le hnormal)

theorem unpack_pack {u : UnpackedFloat} (h : Kept u) :
    (Float.Model.pack u).unpack = u ∨
      ∃ s m e hm, u = .finite s m e hm ∧ 972 ≤ e ∧ (Float.Model.pack u).unpack = .infinity s := by
  cases u with
  | notANumber => exact .inl rfl
  | infinity s => cases s <;> exact .inl rfl
  | zero s => cases s <;> exact .inl rfl
  | finite s m e hm =>
      have hpack := unpack_pack_finite s hm h
      by_cases hlarge : 972 ≤ e
      · rw [if_pos hlarge] at hpack
        exact .inr ⟨s, m, e, hm, rfl, hlarge, hpack⟩
      · rw [if_neg hlarge] at hpack
        exact .inl hpack

/-- What is unpacked is kept with canonical mantissas. -/
theorem kept_unpack (x : Float.Model) : Kept x.unpack := by
  have hmantissa : (@unpackMantissa .binary64 x.toBits.toBitVec).toNat < 2 ^ 52 :=
    (@unpackMantissa .binary64 x.toBits.toBitVec).isLt
  have hbias : ((Format.binary64.exponentBias : ℕ) : ℤ) = 1023 := rfl
  unfold Float.Model.unpack UnpackedFloat.unpack
  simp only [hbias]
  split
  · split <;> trivial
  · split
    · split
      · trivial
      · rename_i hsubnormal _
        refine ⟨by omega, ?_, .inr ?_⟩
        all_goals
          rw [hsubnormal]
          decide
    · rename_i hnormal
      have hexponent : (@unpackExponent .binary64 x.toBits.toBitVec).toNat ≠ 0 :=
        fun hzero => hnormal (BitVec.eq_of_toNat_eq hzero)
      have hfull := toNat_one_append (@unpackMantissa .binary64 x.toBits.toBitVec)
      refine ⟨?_, by omega, .inl ?_⟩
      all_goals
        rw [hfull]
        omega

theorem lowerBound_pack {u : UnpackedFloat} {k : ℕ} (hu : Kept u) (h : LowerBound k u) :
    LowerBound k (Float.Model.pack u).unpack := by
  rcases unpack_pack hu with hsame | ⟨s, m, e, hm, rfl, _, hinfinite⟩
  · rw [hsame]
    exact h
  · rw [hinfinite]
    cases s with
    | negative => exact h.elim
    | positive => trivial

theorem upperBound_pack {u : UnpackedFloat} {k : ℕ} (hu : Kept u) (hk : k < 2 ^ 53)
    (h : UpperBound k u) : UpperBound k (Float.Model.pack u).unpack := by
  rcases unpack_pack hu with hsame | ⟨s, m, e, hm, rfl, hlarge, _⟩
  · rw [hsame]
    exact h
  · -- what overflows is far above the bound
    exfalso
    obtain ⟨_, _, hfull⟩ : Canonical m e := hu
    cases s with
    | negative => exact h
    | positive =>
        have hvalue : value m e ≤ k := h
        rw [value_le_natCast_iff (i := e.toNat) (j := 0) (by push_cast; omega), pow_zero,
          mul_one] at hvalue
        have hmul : 2 ^ 52 * 2 ^ 1 ≤ m * 2 ^ e.toNat :=
          Nat.mul_le_mul (by omega) (Nat.pow_le_pow_right Nat.two_pos (by omega))
        omega

end Journey.Binary64
