import Journey.Cost.Model
import Journey.Proofs.Cost.Bounds
import Journey.Proofs.Search.Trail

/-!
# Bounds on charges

What a leg is charged is a weighted sum of seconds, in binary64, brought to the
nearest cost at the end.

* **numbers**: the bounds `AtLeast` and `AtMost` follow sums and products, and
  pass over to the nearest integer. `Reaches` is the bound that is used of a
  charge: a charge that is beyond all costs need not be told from a larger one;
* **settings**: settings that are accepted are in range (`Settings.Valid`), which
  bounds no value from above;
* **charges**: with such settings no leg costs less than nothing
  (`CostRates.Nonnegative.model`). With weights of no less than one it costs at
  least its seconds and its boarding (`CostRates.le_walkCost`,
  `CostRates.le_rideCost`), while the least cost of a journey is at most what its
  own seconds and boardings come to (`CostRates.leastCost_ends`).
-/

namespace Journey

open Float.Model Float.Model.UnpackedFloat Binary64

/-! ## Numbers -/

/-- The number is no less than a whole one, and not a number below zero. -/
def AtLeast (k : ℕ) (x : Float) : Prop := LowerBound k x.toModel.unpack

/-- The number is finite, not below zero, and no greater than a whole one. -/
def AtMost (k : ℕ) (x : Float) : Prop := UpperBound k x.toModel.unpack

/-- The number is not below zero, if it is a number. -/
def NotNegative (x : Float) : Prop := NotBelow x.toModel.unpack

section numbers

variable {a b k : ℕ} {x y : Float}

theorem AtLeast.mono (h : AtLeast a x) (hb : b ≤ a) : AtLeast b x := by
  unfold AtLeast at h ⊢
  rcases lowerBound_cases h with heq | ⟨s, heq, rfl⟩ | ⟨m, e, hm, heq, hle⟩
  · rw [heq]
    trivial
  · rw [heq]
    exact Nat.le_zero.mp hb
  · rw [heq]
    exact le_trans (Nat.cast_le.mpr hb) hle

theorem AtMost.atLeast_zero (h : AtMost k x) : AtLeast 0 x := by
  unfold AtMost at h
  unfold AtLeast
  rcases upperBound_cases h with ⟨s, heq⟩ | ⟨m, e, hm, heq, _⟩
  · rw [heq]
    rfl
  · rw [heq]
    show ((0 : ℕ) : ℚ) ≤ value m e
    unfold value
    positivity

theorem AtLeast.add (hx : AtLeast a x) (hy : AtLeast b y) (hab : a + b ≤ 2 ^ 53) :
    AtLeast (a + b) (x + y) :=
  lowerBound_pack (kept_add (kept_unpack x.toModel) (kept_unpack y.toModel) hx hy)
    (lowerBound_add hx hy hab)

theorem AtMost.add (hx : AtMost a x) (hy : AtMost b y) (hab : a + b < 2 ^ 53) :
    AtMost (a + b) (x + y) :=
  upperBound_pack
    (kept_add (kept_unpack x.toModel) (kept_unpack y.toModel) hx.atLeast_zero hy.atLeast_zero) hab
    (upperBound_add hx hy hab)

theorem AtLeast.mul (hx : AtLeast a x) (hy : AtLeast b y) (hab : a * b ≤ 2 ^ 53)
    (hfinite : x.isFinite = true ∨ 0 < b) (hfinite' : y.isFinite = true ∨ 0 < a) :
    AtLeast (a * b) (x * y) :=
  lowerBound_pack (kept_mul (kept_unpack x.toModel) (kept_unpack y.toModel))
    (lowerBound_mul (kept_unpack x.toModel) (kept_unpack y.toModel) hx hy hab hfinite hfinite')

theorem AtMost.mul (hx : AtMost a x) (hy : AtMost b y) (hab : a * b < 2 ^ 53) :
    AtMost (a * b) (x * y) :=
  upperBound_pack (kept_mul (kept_unpack x.toModel) (kept_unpack y.toModel)) hab
    (upperBound_mul (kept_unpack x.toModel) (kept_unpack y.toModel) hx hy hab)

theorem clampInt_mono {m n : ℤ} (h : m ≤ n) : clampInt m ≤ clampInt n := by
  unfold clampInt minInt maxInt
  split <;> split <;> (try split) <;> (try split) <;> omega

theorem AtLeast.clampInt_le_nearestInt (h : AtLeast k x) : clampInt k ≤ nearestInt x := by
  rw [nearestInt_eq]
  unfold AtLeast at h
  rcases lowerBound_cases h with heq | ⟨s, heq, rfl⟩ | ⟨m, e, hm, heq, hle⟩
  · rw [heq]
    exact (clampInt_inRange k).2
  · rw [heq]
    exact (by decide : clampInt 0 ≤ 0)
  · rw [heq]
    exact clampInt_mono (Int.ofNat_le.mpr (le_scaledSize hle))

theorem AtMost.nearestInt_le_clampInt (h : AtMost k x) : nearestInt x ≤ clampInt k := by
  rw [nearestInt_eq]
  unfold AtMost at h
  rcases upperBound_cases h with ⟨s, heq⟩ | ⟨m, e, hm, heq, hle⟩
  · rw [heq]
    exact clampInt_mono (Int.natCast_nonneg k)
  · rw [heq]
    exact clampInt_mono (Int.ofNat_le.mpr (scaledSize_le hle))

/-! ## Whole numbers -/

theorem atLeast_ofUInt64 {n : UInt64} (hk : k ≤ 2 ^ 53) (h : k ≤ n.toNat) :
    AtLeast k n.toFloat := by
  show LowerBound k
    (Float.Model.pack (UnpackedFloat.normalize .binary64 (n.toNat : ℤ) 0 .positive)).unpack
  rcases eq_or_ne n.toNat 0 with hzero | hpos
  · rw [hzero]
    exact Nat.le_zero.mp (hzero ▸ h)
  · refine lowerBound_pack (kept_normalize hpos 0 .positive) (lowerBound_normalize hpos _ hk ?_)
    rw [natCast_le_value_iff (e := 0) (i := 0) (j := 0) (by simp)]
    simpa using h

theorem atMost_ofUInt64 {n : UInt64} (hk : k < 2 ^ 53) (h : n.toNat ≤ k) :
    AtMost k n.toFloat := by
  show UpperBound k
    (Float.Model.pack (UnpackedFloat.normalize .binary64 (n.toNat : ℤ) 0 .positive)).unpack
  rcases eq_or_ne n.toNat 0 with hzero | hpos
  · rw [hzero]
    trivial
  · refine upperBound_pack (kept_normalize hpos 0 .positive) hk (upperBound_normalize hpos _ hk ?_)
    rw [value_le_natCast_iff (e := 0) (i := 0) (j := 0) (by simp)]
    simpa using h

/-- One, by its bits. -/
def oneOfBits : Float := Float.ofBits 0x3FF0000000000000

theorem unpack_oneOfBits :
    oneOfBits.toModel.unpack = .finite .positive (2 ^ 52) (-52) (by decide) :=
  rfl

theorem value_one : value (2 ^ 52) (-52) = 1 := by
  unfold value
  norm_num

theorem atLeast_oneOfBits : AtLeast 1 oneOfBits := by
  rw [AtLeast, unpack_oneOfBits, LowerBound, value_one]
  exact Nat.cast_one.le

theorem atMost_oneOfBits : AtMost 1 oneOfBits := by
  rw [AtMost, unpack_oneOfBits, UpperBound, value_one]
  exact Nat.cast_one.ge

/-- A number that binary64 can hold is read as an integer of 64 bits. -/
theorem ofNat_eq_of_lt {n : ℕ} (h : n < 2 ^ 53) :
    Float.ofNat n = n.toUInt64.toFloat * oneOfBits := by
  show Float.ofScientific n false 0 = _
  unfold Float.ofScientific
  rw [dif_pos ⟨h, by decide⟩]
  rfl

theorem toNat_toUInt64 {n : ℕ} (h : n < 2 ^ 53) : n.toUInt64.toNat = n := by
  show n % 2 ^ 64 = n
  omega

theorem mul_one_finite (m : ℕ) (e : ℤ) (hm : 0 < m) :
    mul .binary64 (.finite .positive m e hm) (.finite .positive 1 0 Nat.one_pos) =
      roundWithAccuracy .binary64 .positive m e .exact := by
  show roundWithAccuracy .binary64 .positive (m * 1) (e + 0) .exact = _
  rw [mul_one, add_zero]

theorem ofScientific_eq {n : ℕ} (hn : 0 < n) :
    UnpackedFloat.ofScientific .binary64 n 0 =
      roundWithAccuracy .binary64 .positive (n <<< 53) (-53) .exact := by
  have hbits : Format.binary64.mantissaBits = 53 := rfl
  have hlow : ¬ (0 : ℤ) < -(2 ^ 11 + (n.log2 : ℤ)) := by omega
  simp only [UnpackedFloat.ofScientific, dif_neg hn.ne', hbits, if_neg hlow, le_refl, if_true,
    Int.toNat_zero, pow_zero, mul_one_finite, Nat.cast_ofNat]
  exact if_neg (by omega)

/-- A larger number is scaled by a power of two and rounded. -/
theorem ofNat_eq_of_le {n : ℕ} (h : 2 ^ 53 ≤ n) :
    Float.ofNat n =
      .ofModel (.pack (roundWithAccuracy .binary64 .positive (n <<< 53) (-53) .exact)) := by
  have heq : Float.ofNat n = .ofModel (.pack (UnpackedFloat.ofScientific .binary64 n 0)) := by
    show Float.ofScientific n false 0 = _
    unfold Float.ofScientific
    rw [dif_neg (fun hlt => by omega)]
    rfl
  rw [heq, ofScientific_eq (by omega)]

theorem atMost_ofInt {n : ℤ} (hn : 0 ≤ n) (h : n ≤ k) (hk : k < 2 ^ 53) :
    AtMost k (Float.ofInt n) := by
  obtain ⟨j, rfl⟩ := Int.eq_ofNat_of_zero_le hn
  show AtMost k (Float.ofNat j)
  have hj : j < 2 ^ 53 := by omega
  have hmul := (atMost_ofUInt64 (n := j.toUInt64) hk (by rw [toNat_toUInt64 hj]; omega)).mul
    atMost_oneOfBits (by omega)
  rwa [mul_one, ← ofNat_eq_of_lt hj] at hmul

theorem atLeast_ofInt {n : ℤ} (h : (k : ℤ) ≤ n) (hk : k ≤ 2 ^ 53) : AtLeast k (Float.ofInt n) := by
  obtain ⟨j, rfl⟩ := Int.eq_ofNat_of_zero_le (by omega : 0 ≤ n)
  show AtLeast k (Float.ofNat j)
  rcases lt_or_ge j (2 ^ 53) with hj | hj
  · have hmul := (atLeast_ofUInt64 (n := j.toUInt64) hk (by rw [toNat_toUInt64 hj]; omega)).mul
      atLeast_oneOfBits (by omega) (.inr Nat.one_pos) (.inl rfl)
    rwa [mul_one, ← ofNat_eq_of_lt hj] at hmul
  · have htarget := target_shiftLeft (by omega : j ≠ 0) 53 0
    have hvalue := value_shiftLeft j 53 0
    have hpos : j <<< 53 ≠ 0 := by
      rw [Nat.shiftLeft_eq]
      positivity
    have hexponent : (0 : ℤ) - (53 : ℕ) = -53 := rfl
    rw [ofNat_eq_of_le hj]
    rw [hexponent] at htarget hvalue
    -- the mantissa is not to be computed
    generalize j <<< 53 = m at htarget hvalue hpos ⊢
    have hle : -53 ≤ target m (-53) := by
      rw [htarget, target]
      omega
    refine lowerBound_pack (kept_round hpos hle) (lowerBound_round hpos hle hk ?_)
    rw [hvalue, value, zpow_zero, mul_one]
    exact_mod_cast h

/-! ## Weights -/

theorem lt_iff_unpack : x < y ↔ x.toModel.unpack.lt y.toModel.unpack = true := by
  show decide (x.toModel < y.toModel) = true ↔ _
  rw [decide_eq_true_eq]
  exact Iff.rfl

theorem le_iff_unpack : x ≤ y ↔ x.toModel.unpack.le y.toModel.unpack = true := by
  show decide (x.toModel ≤ y.toModel) = true ↔ _
  rw [decide_eq_true_eq]
  exact Iff.rfl

theorem isFinite_of_isWeight (h : Settings.isWeight x = true) : x.isFinite = true :=
  (Bool.and_eq_true_iff.mp h).1

theorem atLeast_zero_of_isWeight (h : Settings.isWeight x = true) : AtLeast 0 x := by
  obtain ⟨hfinite, hlt⟩ := Bool.and_eq_true_iff.mp h
  rw [Bool.not_eq_true', decide_eq_false_iff_not, lt_iff_unpack] at hlt
  change x.toModel.unpack.isFinite = true at hfinite
  change ¬ x.toModel.unpack.lt (.zero .positive) = true at hlt
  unfold AtLeast
  cases hx : x.toModel.unpack with
  | notANumber => simp [hx, UnpackedFloat.isFinite] at hfinite
  | infinity s => simp [hx, UnpackedFloat.isFinite] at hfinite
  | zero s => rfl
  | finite s m e hm =>
      cases s with
      | positive =>
          show ((0 : ℕ) : ℚ) ≤ value m e
          unfold value
          positivity
      | negative =>
          rw [hx] at hlt
          exact absurd rfl hlt

theorem atLeast_one_of_le (h : 1 ≤ x) : AtLeast 1 x := by
  have hkept := kept_unpack x.toModel
  rw [le_iff_unpack] at h
  change (UnpackedFloat.finite .positive (2 ^ 52) (-52) (by decide)).le x.toModel.unpack = true at h
  unfold AtLeast
  cases hx : x.toModel.unpack with
  | notANumber => simp [hx, UnpackedFloat.le, UnpackedFloat.compare] at h
  | infinity s =>
      cases s with
      | positive => trivial
      | negative => simp [hx, UnpackedFloat.le, UnpackedFloat.compare] at h
  | zero s => simp [hx, UnpackedFloat.le, UnpackedFloat.compare] at h
  | finite s m e hm =>
      cases s with
      | negative => simp [hx, UnpackedFloat.le, UnpackedFloat.compare] at h
      | positive =>
          rw [hx] at h hkept
          change ((compare (-52) e).then (compare (2 ^ 52) m)).isLE = true at h
          rw [Ordering.isLE_then_iff_or, compare_lt_iff_lt, compare_eq_iff_eq,
            Nat.isLE_compare] at h
          have hfull : 2 ^ 52 ≤ m := by
            rcases h with hexponent | ⟨_, hmantissa⟩
            · rcases hkept.full with hfull | hleast
              · exact hfull
              · omega
            · exact hmantissa
          show ((1 : ℕ) : ℚ) ≤ value m e
          rw [natCast_le_value_iff (i := (e + 52).toNat) (j := 52) (by omega), Nat.one_mul]
          exact hfull.trans (Nat.le_mul_of_pos_right m (Nat.two_pow_pos _))

/-! ## Numbers that are not negative -/

theorem NotNegative.add (hx : NotNegative x) (hy : NotNegative y) : NotNegative (x + y) :=
  notBelow_pack
    (kept_add_of_notBelow (kept_unpack x.toModel) (kept_unpack y.toModel) hx hy)
    (notBelow_add hx hy)

theorem NotNegative.mul (hx : NotNegative x) (hy : NotNegative y) : NotNegative (x * y) :=
  notBelow_pack (kept_mul (kept_unpack x.toModel) (kept_unpack y.toModel))
    (notBelow_mul (kept_unpack x.toModel) (kept_unpack y.toModel) hx hy)

theorem AtLeast.notNegative (h : AtLeast k x) : NotNegative x := .inr (h.mono (Nat.zero_le k))

theorem NotNegative.nearestInt_nonneg (h : NotNegative x) : 0 ≤ nearestInt x := by
  rcases h with h | h
  · rw [nearestInt_eq, h]
    exact le_rfl
  · exact AtLeast.clampInt_le_nearestInt h

/-! ## Charges -/

/-- The number is no less than a whole one, or far beyond the range of costs. -/
def Reaches (n : ℤ) (x : Float) : Prop := AtLeast (min n (2 ^ 40)).toNat x

variable {m n : ℤ}

theorem Reaches.add (hx : Reaches m x) (hy : Reaches n y) : Reaches (m + n) (x + y) :=
  AtLeast.mono (AtLeast.add hx hy (by omega)) (by omega)

theorem reaches_ofInt (n : ℤ) (hn : 0 ≤ n) : Reaches n (Float.ofInt n) :=
  atLeast_ofInt (by omega) (by omega)

/-- A weight of no less than one makes nothing less. -/
theorem Reaches.weigh_left (hx : Settings.isWeight x = true) (hone : 1 ≤ x) (hy : Reaches n y) :
    Reaches n (x * y) := by
  have hmul := AtLeast.mul (atLeast_one_of_le hone) hy (by omega)
    (.inl (isFinite_of_isWeight hx)) (.inr Nat.one_pos)
  rwa [one_mul] at hmul

theorem Reaches.weigh_right (hx : Settings.isWeight x = true) (hone : 1 ≤ x) (hy : Reaches n y) :
    Reaches n (y * x) := by
  have hmul := AtLeast.mul hy (atLeast_one_of_le hone) (by omega)
    (.inr Nat.one_pos) (.inl (isFinite_of_isWeight hx))
  rwa [mul_one] at hmul

theorem nearestInt_inRange (x : Float) : InRange (nearestInt x) := by
  rw [nearestInt_eq]
  cases x.toModel.unpack with
  | notANumber => decide
  | infinity s => cases s <;> decide
  | zero s => exact (by decide : InRange 0)
  | finite s m e hm => exact clampInt_inRange _

theorem Reaches.le_ofSeconds (hn : 0 ≤ n) (h : Reaches n x) :
    min (100 * n) maxInt ≤ Cost.ofSeconds x := by
  have hscale : AtLeast 100 (100 : Float) := atLeast_ofInt (n := 100) (by omega) (by omega)
  have hmul := (AtLeast.mul h hscale (by omega) (.inr (by omega)) (.inl rfl)).clampInt_le_nearestInt
  refine le_trans ?_ hmul
  unfold clampInt minInt maxInt
  split
  · omega
  · split <;> omega

theorem AtMost.ofSeconds_le {k : ℕ} (hk : k < 2 ^ 40) (h : AtMost k x) :
    Cost.ofSeconds x ≤ 100 * k := by
  have hscale : AtMost 100 (100 : Float) := atMost_ofInt (n := 100) (by omega) (by omega) (by omega)
  have hmul := (AtMost.mul h hscale (by omega)).nearestInt_le_clampInt
  refine le_trans hmul ?_
  unfold clampInt minInt maxInt
  split
  · omega
  · split <;> omega

end numbers

/-! ## Settings in range -/

/-- Every value is in its range. -/
structure Settings.Valid (s : Settings) : Prop where
  boardCost : 0 ≤ s.cost.boardCost
  transferCost : 0 ≤ s.cost.transferCost
  transferReluctance : Settings.isWeight s.cost.transferReluctance = true
  waitReluctance : Settings.isWeight s.cost.waitReluctance = true
  boardSlack : 0 ≤ s.slack.board
  alightSlack : 0 ≤ s.slack.alight
  transferSlack : 0 ≤ s.slack.transfer

theorem Settings.Valid.slack {s : Settings} (h : s.Valid) :
    (Slack.ofSettings s.slack).Nonnegative :=
  ⟨fun _ => h.boardSlack, fun _ => h.alightSlack, h.transferSlack⟩

theorem Settings.valid_of_validate {s : Settings} (h : s.validate = .ok ()) : s.Valid := by
  unfold validate at h
  split at h
  · rename_i hnone
    simp only [checks, List.find?_eq_none, List.mem_cons, List.not_mem_nil, or_false,
      forall_eq_or_imp, forall_eq, Bool.not_eq_true', Bool.not_eq_false, decide_eq_true_eq] at hnone
    obtain ⟨hboard, htransfer, hwalk, hwait, hslack, halight, hchange⟩ := hnone
    exact ⟨hboard, htransfer, hwalk, hwait, hslack, halight, hchange⟩
  · cases h

/-! ## Rates -/

namespace CostRates

/-- No rate is below zero, and no stop costs less than nothing. -/
structure Nonnegative (r : CostRates) : Prop where
  boardCost : NotNegative r.boardCost
  transferCost : NotNegative r.transferCost
  transferReluctance : NotNegative r.transferReluctance
  waitReluctance : NotNegative r.waitReluctance
  stopCost : ∀ stop, 0 ≤ r.stopCost stop

theorem stopCost_nonneg {r : CostRates} (h : ∀ costs ∈ r.stopCosts, ∀ c ∈ costs, 0 ≤ c)
    (stop : ℕ) : 0 ≤ r.stopCost stop := by
  unfold stopCost
  cases hcosts : r.stopCosts with
  | none => exact le_rfl
  | some costs =>
      show 0 ≤ costs[stop]?.getD 0
      cases hcost : costs[stop]? with
      | none => exact le_rfl
      | some c => exact h costs hcosts c (List.mem_of_getElem? hcost)

theorem notNegative_ofInt {n : ℤ} (h : 0 ≤ n) : NotNegative (Float.ofInt n) :=
  (atLeast_ofInt (k := 0) h (by omega)).notNegative

theorem nonnegative_ofSettings {s : Settings} (h : s.Valid) {stopCosts : Option (List ℤ)}
    (hstops : ∀ costs ∈ stopCosts, ∀ c ∈ costs, 0 ≤ c) :
    (ofSettings s.cost stopCosts).Nonnegative where
  boardCost := notNegative_ofInt h.boardCost
  transferCost := notNegative_ofInt h.transferCost
  transferReluctance := (atLeast_zero_of_isWeight h.transferReluctance).notNegative
  waitReluctance := (atLeast_zero_of_isWeight h.waitReluctance).notNegative
  stopCost := stopCost_nonneg hstops

section nonnegative

variable {r : CostRates}

theorem Nonnegative.walkCost_nonneg (h : r.Nonnegative) {duration : ℤ} (hduration : 0 ≤ duration) :
    0 ≤ r.walkCost duration := by
  have hseconds := (notNegative_ofInt hduration).mul h.transferReluctance
  exact (hseconds.mul (notNegative_ofInt (n := 100) (by omega))).nearestInt_nonneg

theorem Nonnegative.rideSeconds (h : r.Nonnegative) (first : Bool) {wait ride : ℤ}
    (hwait : 0 ≤ wait) (hride : 0 ≤ ride) : NotNegative (r.rideSeconds first wait ride) := by
  have htransfer : NotNegative (if first then 0 else r.transferCost) := by
    cases first with
    | true => exact notNegative_ofInt (n := 0) le_rfl
    | false => exact h.transferCost
  have hwaiting := h.waitReluctance.mul (notNegative_ofInt hwait)
  exact ((h.boardCost.add htransfer).add hwaiting).add (notNegative_ofInt hride)

/-- What a ride costs comes on top of its stops. -/
theorem Nonnegative.ofSeconds_le (h : r.Nonnegative) {first : Bool} {boardStop alightStop : ℕ}
    {wait ride cost : ℤ} (hcost : r.rideCost first boardStop wait ride alightStop = .ok cost) :
    Cost.ofSeconds (r.rideSeconds first wait ride) ≤ cost := by
  obtain ⟨stops, hstops, hcost⟩ := bind_eq_ok_iff.mp hcost
  obtain ⟨_, rfl⟩ := Checked.add_eq_ok_iff.mp hstops
  obtain ⟨_, rfl⟩ := Checked.add_eq_ok_iff.mp hcost
  have hboard := h.stopCost boardStop
  have halight := h.stopCost alightStop
  omega

/-- No leg costs less than nothing. -/
theorem Nonnegative.model (h : r.Nonnegative) : r.model.Nonnegative where
  walk hduration hcost := by
    cases hcost
    exact h.walkCost_nonneg hduration
  ride {first _ wait aboard _ _} hwait haboard hcost := by
    have hseconds := (h.rideSeconds first hwait haboard).mul (notNegative_ofInt (n := 100) (by omega))
    exact hseconds.nearestInt_nonneg.trans (h.ofSeconds_le hcost)

end nonnegative

section reluctant

variable {s : Settings} {stopCosts : Option (List ℤ)}

theorem le_walkCost (h : s.Valid) (hone : 1 ≤ s.cost.transferReluctance) {duration : ℤ}
    (hduration : 0 ≤ duration) :
    min (100 * duration) maxInt ≤ (ofSettings s.cost stopCosts).walkCost duration :=
  ((reaches_ofInt duration hduration).weigh_right h.transferReluctance hone).le_ofSeconds hduration

theorem le_rideCost (h : s.Valid) (hone : 1 ≤ s.cost.waitReluctance)
    (hstops : ∀ costs ∈ stopCosts, ∀ c ∈ costs, 0 ≤ c) {first : Bool} {boardStop alightStop : ℕ}
    {wait ride cost : ℤ} (hwait : 0 ≤ wait) (hride : 0 ≤ ride)
    (hcost : (ofSettings s.cost stopCosts).rideCost first boardStop wait ride alightStop =
      .ok cost) :
    min (100 * (s.cost.boardCost + (if first then 0 else s.cost.transferCost) + wait + ride))
      maxInt ≤ cost := by
  refine le_trans ?_ ((nonnegative_ofSettings h hstops).ofSeconds_le hcost)
  have htransfer : Reaches (if first then 0 else s.cost.transferCost)
      (if first then 0 else Float.ofInt s.cost.transferCost) := by
    cases first with
    | true => exact reaches_ofInt 0 le_rfl
    | false => exact reaches_ofInt _ h.transferCost
  have hwaiting := (reaches_ofInt wait hwait).weigh_left h.waitReluctance hone
  have hsum := (((reaches_ofInt s.cost.boardCost h.boardCost).add htransfer).add hwaiting).add
    (reaches_ofInt ride hride)
  refine Reaches.le_ofSeconds ?_ hsum
  have := h.boardCost
  have := h.transferCost
  split <;> omega

/-- What a journey is charged with at least is whole, up to the end of the range. -/
theorem leastCost_ends (h : s.Valid) (hrange : InRange s.cost.transferCost) {duration : ℤ}
    (hduration : 0 ≤ duration) (n : ℕ) :
    Ends (· ≤ min (100 * (s.cost.boardCost * (1 + n) + s.cost.transferCost * n + duration)) maxInt)
      (Fault.OverflowsUnless (InRange (1 + n)))
      ((ofSettings s.cost stopCosts).leastCost duration n) := by
  refine Ends.bind_cases (fun f hf => ?_) fun boardings hboardings => ?_
  · have hends := Checked.add_exactly 1 n
    rw [hf] at hends
    exact hends
  · obtain ⟨hfits, rfl⟩ := Checked.add_eq_ok_iff.mp hboardings
    obtain ⟨b, hb⟩ := Int.eq_ofNat_of_zero_le h.boardCost
    obtain ⟨t, ht⟩ := Int.eq_ofNat_of_zero_le h.transferCost
    obtain ⟨d, rfl⟩ := Int.eq_ofNat_of_zero_le hduration
    show Cost.ofSeconds (Float.ofInt s.cost.boardCost * Float.ofInt (1 + n) +
      Float.ofInt s.cost.transferCost * Float.ofInt n + Float.ofInt d) ≤ _
    rw [ht] at hrange
    rw [hb, ht]
    have hsum : (b * (1 + n) + t * n + d : ℤ) = ((b * (1 + n) + t * n + d : ℕ) : ℤ) := by
      push_cast
      rfl
    rw [hsum]
    unfold InRange maxInt at hrange hfits
    by_cases hlarge : maxInt < 100 * ((b * (1 + n) + t * n + d : ℕ) : ℤ)
    · rw [min_eq_right hlarge.le]
      exact (nearestInt_inRange _).2
    · rw [min_eq_left (Int.not_lt.mp hlarge)]
      unfold maxInt at hlarge
      have hboarding : b ≤ b * (1 + n) := Nat.le_mul_of_pos_right b (by omega)
      have hboardings := (atMost_ofInt (k := b) (Int.natCast_nonneg b) le_rfl (by omega)).mul
        (atMost_ofInt (n := 1 + n) (k := 1 + n) (by omega) (by omega) (by omega)) (by omega)
      have htransfers := (atMost_ofInt (k := t) (Int.natCast_nonneg t) le_rfl (by omega)).mul
        (atMost_ofInt (k := n) (Int.natCast_nonneg n) le_rfl (by omega)) (by omega)
      have htime := atMost_ofInt (k := d) (Int.natCast_nonneg d) le_rfl (by omega)
      have hall := (hboardings.add htransfers (by omega)).add htime (by omega)
      exact hall.ofSeconds_le (by omega)

end reluctant

end CostRates

/-- The extender that settings describe, with a table of stop costs or without. -/
def Extender.ofSettings (s : Settings) (stopCosts : Option (List ℤ)) : Extender where
  cost := (CostRates.ofSettings s.cost stopCosts).model
  slack := Slack.ofSettings s.slack

end Journey
