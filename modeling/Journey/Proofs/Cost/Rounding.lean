import Journey.Cost.Units
import Journey.Proofs.Outcome

/-!
# Rounding to whole seconds

A cost is rounded by adding half a second and dividing, so what can go wrong is the
addition alone: it leaves the range for the greatest fifty costs
(`Cost.toWhole_exactly`). Where it does not, the quotient is the nearest whole number,
a half going up (`Cost.nearest_iff`).

**Statement** (`Cost.toWhole_nearest`): a cost up to `Cost.roundingLimit` is rounded to
its one nearest whole number of seconds, no lower than any smaller cost, and any greater
cost overflows. A whole number of seconds made a cost and rounded comes back, unless that
cost is past the limit.
-/

namespace Journey.Cost

variable {cost whole seconds : Int}

/-- The cost is less than half a second above the whole number, or at most half a second
below it. -/
def Nearest (whole cost : Int) : Prop := 100 * whole - 50 ≤ cost ∧ cost < 100 * whole + 50

instance (whole cost : Int) : Decidable (Nearest whole cost) := inferInstanceAs (Decidable (_ ∧ _))

/-- The greatest cost that half a second can be added to. -/
def roundingLimit : Int := 2147483597

/-- A cost has one nearest whole number. -/
theorem nearest_iff : Nearest whole cost ↔ whole = (cost + scale / 2) / scale := by
  unfold Nearest scale
  omega

/-- Rounding fails where half a second cannot be added, and nowhere else. -/
theorem toWhole_exactly (cost : Int) :
    Checked.Exactly (InRange (cost + scale / 2)) ((cost + scale / 2) / scale) (toWhole cost) :=
  (Checked.add_exactly cost (scale / 2)).map _

theorem toWhole_eq_ok_iff :
    toWhole cost = .ok whole ↔ InRange (cost + scale / 2) ∧ whole = (cost + scale / 2) / scale :=
  (toWhole_exactly cost).eq_ok_iff

/-- Half a second can be added to a cost up to the limit. -/
theorem raised_inRange_iff (h : InRange cost) :
    InRange (cost + scale / 2) ↔ cost ≤ roundingLimit := by
  unfold InRange minInt maxInt scale roundingLimit at *
  omega

theorem toWhole_of_le (h : InRange cost) (hle : cost ≤ roundingLimit) :
    toWhole cost = .ok ((cost + scale / 2) / scale) :=
  toWhole_eq_ok_iff.mpr ⟨(raised_inRange_iff h).mpr hle, rfl⟩

theorem toWhole_of_lt (h : InRange cost) (hlt : roundingLimit < cost) :
    toWhole cost = .error .addOverflow := by
  have hout : ¬ InRange (cost + scale / 2) := by
    rw [raised_inRange_iff h]
    omega
  unfold toWhole Checked.add
  rw [if_neg hout]
  rfl

/-- A smaller cost is not rounded to a greater number. -/
theorem toWhole_mono {cost' whole' : Int} (hle : cost ≤ cost') (h : toWhole cost = .ok whole)
    (h' : toWhole cost' = .ok whole') : whole ≤ whole' := by
  obtain ⟨_, rfl⟩ := toWhole_eq_ok_iff.mp h
  obtain ⟨_, rfl⟩ := toWhole_eq_ok_iff.mp h'
  exact Int.ediv_le_ediv (by decide) (by omega)

/-- The cost of a whole number of seconds is a multiple of the scale. -/
theorem ofWhole_eq_ok_iff : ofWhole seconds = .ok cost ↔ InRange cost ∧ cost = seconds * scale :=
  Checked.mul_eq_ok_iff

/-- No other whole number is nearest to the cost of a whole number of seconds. -/
theorem toWhole_ofWhole (h : ofWhole seconds = .ok cost) (hround : toWhole cost = .ok whole) :
    whole = seconds := by
  obtain ⟨_, rfl⟩ := ofWhole_eq_ok_iff.mp h
  obtain ⟨_, rfl⟩ := toWhole_eq_ok_iff.mp hround
  unfold scale
  omega

/-- Of the whole numbers whose cost is in range, only the greatest is past the limit. -/
theorem le_roundingLimit_iff_of_ofWhole (h : ofWhole seconds = .ok cost) :
    cost ≤ roundingLimit ↔ seconds ≠ 21474836 := by
  obtain ⟨hrange, rfl⟩ := ofWhole_eq_ok_iff.mp h
  unfold InRange minInt maxInt scale roundingLimit at *
  omega

theorem toWhole_nearest (cost : Int) (h : InRange cost) :
    (cost ≤ roundingLimit ∧
        (∃ whole, toWhole cost = .ok whole ∧ ∀ d, Nearest d cost ↔ d = whole) ∨
      roundingLimit < cost ∧ toWhole cost = .error .addOverflow) ∧
    (∀ cost' whole whole', cost ≤ cost' → toWhole cost = .ok whole →
      toWhole cost' = .ok whole' → whole ≤ whole') ∧
    ∀ seconds, ofWhole seconds = .ok cost →
      seconds ≠ 21474836 ∧ toWhole cost = .ok seconds ∨
        seconds = 21474836 ∧ toWhole cost = .error .addOverflow := by
  refine ⟨?_, fun cost' whole whole' hle hw hw' => toWhole_mono hle hw hw', ?_⟩
  · by_cases hle : cost ≤ roundingLimit
    · exact .inl ⟨hle, _, toWhole_of_le h hle, fun d => nearest_iff⟩
    · have hlt : roundingLimit < cost := by omega
      exact .inr ⟨hlt, toWhole_of_lt h hlt⟩
  · intro seconds hseconds
    by_cases hle : cost ≤ roundingLimit
    · have hround := toWhole_of_le h hle
      refine .inl ⟨(le_roundingLimit_iff_of_ofWhole hseconds).mp hle, ?_⟩
      rw [hround, toWhole_ofWhole hseconds hround]
    · have hlast : seconds = 21474836 := by
        have hwithin := le_roundingLimit_iff_of_ofWhole hseconds
        omega
      exact .inr ⟨hlast, toWhole_of_lt h (by omega)⟩

/-- The greatest whole number that comes back. -/
theorem toWhole_nearest_last :
    InRange 2147483500 ∧ ofWhole 21474835 = .ok 2147483500 ∧
      toWhole 2147483500 = .ok 21474835 := by
  have hrange : InRange 2147483500 := by decide
  have hcost : ofWhole 21474835 = .ok 2147483500 := rfl
  rcases (toWhole_nearest 2147483500 hrange).2.2 21474835 hcost with ⟨_, hback⟩ | ⟨hlast, _⟩
  · exact ⟨hrange, hcost, hback⟩
  · exact absurd hlast (by decide)

/-- The greatest cost of all is not rounded to the number it is nearest to, nor does that
number come back. -/
theorem greatest_overflows :
    InRange maxInt ∧ Nearest 21474836 maxInt ∧ toWhole maxInt = .error .addOverflow ∧
      ofWhole 21474836 = .ok 2147483600 ∧ toWhole 2147483600 = .error .addOverflow :=
  ⟨by decide, by decide, rfl, rfl, rfl⟩

end Journey.Cost
