import Journey.Proofs.Timetable.RoundTrip
import Journey.Proofs.Timetable.Timeline

/-!
# Shifts of a trip

A trip without realtime data is its baseline and a time shift. To shift it to a target
sets the time shift, and nothing else, to what brings the baseline time that the target
is about to the time that is asked for (`withShift_of_shift`). What it was before does not
matter.

**Statement** (`shift_rigid`): such a trip, shifted to a time at any of its stops, hits
the target unless something overflows on the way. It moves as a whole (`MovesBy`): every
scheduled time by the same number of seconds, its times are in order or not as they
were, and it is the trip that is built from stop times moved by as much. Of several
shifts only the last one counts.
-/

namespace Journey

/-- A time at which a trip is to get to a stop, or to leave it. -/
structure Target where
  stop : Nat
  time : Int
  departure : Bool
  deriving DecidableEq, Repr

namespace TripTimes

/-- The time that the target is about. -/
def timeAt (t : TripTimes) (target : Target) : Checked Int :=
  if target.departure then t.departure target.stop else t.arrival target.stop

def shift (t : TripTimes) (target : Target) : Outcome TripRefusal TripTimes :=
  t.shiftTo target.stop target.time target.departure

/-- Shift a trip from target to target. -/
def shiftAll (t : TripTimes) (targets : List Target) : Outcome TripRefusal TripTimes :=
  targets.foldlM shift t

/-- The baseline of the trip with another time shift. -/
def withShift (t : TripTimes) (timeShift : Int) : TripTimes := { t with timeShift }

/-- The trip, so many seconds later. -/
def moved (t : TripTimes) (seconds : Int) : TripTimes := t.withShift (t.timeShift + seconds)

/-- Nothing overflows on the way to the target. -/
def Reaches (t : TripTimes) (target : Target) : Prop :=
  ∃ current, t.timeAt target = .ok current ∧ InRange (target.time - current) ∧
    InRange (t.timeShift + (target.time - current))

/-- The trip was built from these stop times, apart from its service code. The interner is
the one afterwards. -/
def BuiltFrom (t : TripTimes) (stops : List StopTime) (interner : Interner) : Prop :=
  ∃ before start, build t.trip stops before = .ok (start, interner) ∧
    t = { start with serviceCode := t.serviceCode }

/-- The second trip is the first one, so many seconds later in every respect. -/
structure MovesBy (t t' : TripTimes) (seconds : Int) : Prop where
  eq_moved : t' = t.moved seconds
  scheduledArrival : ∀ stop time, t.scheduledArrival stop = .ok time →
    t'.scheduledArrival stop = Checked.add time seconds
  scheduledDeparture : ∀ stop time, t.scheduledDeparture stop = .ok time →
    t'.scheduledDeparture stop = Checked.add time seconds
  /-- If all times are in range, the first violation is the same. -/
  firstViolation : ∀ answer, t.firstViolation = .ok answer →
    Ends (· = answer) (Fault.OverflowsUnless (∃ halts, t'.halts = .ok halts)) t'.firstViolation
  /-- It is what is built from the stop times, as much later: with an interner that has held
  the columns since, the very same, and else apart from which instances its columns are. -/
  built : ∀ stops interner, t.BuiltFrom stops interner → ∀ other, ∃ u other',
    build t.trip (stops.map (·.moved seconds)) other = .ok (u, other') ∧
      { u with serviceCode := t.serviceCode }.untagged = t'.untagged ∧
      (interner.Extends other → { u with serviceCode := t.serviceCode } = t')

variable {t t' : TripTimes} {target : Target}

/-! ## One shift -/

/-- The baseline times that the target is among. -/
def baseTimes (t : TripTimes) (departure : Bool) : List Int :=
  if departure then t.baseDepartures.value else t.baseArrivals.value

theorem timeAt_eq (hplain : t.overlay = none) (target : Target) :
    t.timeAt target = Checked.get (t.baseTimes target.departure) target.stop >>= fun base =>
      Checked.add base t.timeShift := by
  unfold timeAt baseTimes
  cases target.departure with
  | false => exact value_of_overlay_none hplain .arrival target.stop
  | true => exact value_of_overlay_none hplain .departure target.stop

theorem shift_of_lt (hplain : t.overlay = none) (hlt : target.stop < t.stopCount) :
    t.shift target =
      Outcome.ofChecked (t.moveTo target.stop target.time target.departure) := by
  unfold shift shiftTo
  rw [shiftRefusal?_eq_none_iff.mpr ⟨hplain, hlt⟩]
  rfl

theorem shift_of_le (hplain : t.overlay = none) (hle : t.stopCount ≤ target.stop) :
    t.shift target = Outcome.refuse (.stopOutOfRange target.stop t.stopCount) := by
  unfold shift shiftTo shiftRefusal? isScheduled
  rw [hplain, Option.isNone_none, if_pos rfl, if_pos hle]

theorem lt_of_shift (hplain : t.overlay = none) (h : t.shift target = .ok t') :
    target.stop < t.stopCount := by
  by_contra hle
  rw [shift_of_le hplain (Nat.le_of_not_lt hle)] at h
  cases h

/-- A shift moves the trip by what the time is off the target. -/
theorem moved_of_shift (hplain : t.overlay = none) (h : t.shift target = .ok t') :
    ∃ current, t.timeAt target = .ok current ∧ t' = t.moved (target.time - current) := by
  rw [shift_of_lt hplain (lt_of_shift hplain h), Outcome.ofChecked_eq_ok_iff] at h
  obtain ⟨current, hcurrent, h⟩ := bind_eq_ok_iff.mp h
  obtain ⟨distance, hdistance, h⟩ := bind_eq_ok_iff.mp h
  obtain ⟨timeShift, hsum, h⟩ := bind_eq_ok_iff.mp h
  obtain ⟨_, rfl⟩ := Checked.sub_eq_ok_iff.mp hdistance
  obtain ⟨_, rfl⟩ := Checked.add_eq_ok_iff.mp hsum
  cases h
  exact ⟨current, hcurrent, rfl⟩

/-- It sets the time shift, to what the baseline time is off the target. -/
theorem withShift_of_shift (hplain : t.overlay = none) (h : t.shift target = .ok t') :
    ∃ base, (t.baseTimes target.departure)[target.stop]? = some base ∧
      t' = t.withShift (target.time - base) := by
  obtain ⟨current, hcurrent, rfl⟩ := moved_of_shift hplain h
  rw [timeAt_eq hplain] at hcurrent
  obtain ⟨base, hbase, hadd⟩ := bind_eq_ok_iff.mp hcurrent
  obtain ⟨_, rfl⟩ := Checked.add_eq_ok_iff.mp hadd
  refine ⟨base, Checked.get_eq_ok_iff.mp hbase, congrArg t.withShift ?_⟩
  omega

/-- In range, a shift either goes through or overflows. -/
theorem ok_of_settles (hplain : t.overlay = none) (hlt : target.stop < t.stopCount)
    (h : (t.shift target).Settles) : ∃ t', t.shift target = .ok t' := by
  rcases Outcome.settles_iff.mp h with hok | ⟨reason, hrefused⟩
  · exact hok
  · rw [shift_of_lt hplain hlt] at hrefused
    cases hmoved : t.moveTo target.stop target.time target.departure with
    | error f =>
        rw [hmoved] at hrefused
        cases hrefused
    | ok t' =>
        rw [hmoved] at hrefused
        cases hrefused

/-- A shift goes through unless something overflows on the way to the target. -/
theorem shift_ends (hmade : t.Made) (hplain : t.overlay = none)
    (hlt : target.stop < t.stopCount) :
    Ends (fun t' => t.shift target = .ok t') (Failure.OverflowsUnless (t.Reaches target))
      (t.shift target) := by
  refine Ends.of_forall ?_ fun _ hshift => hshift
  obtain ⟨built, accepted, hcopied⟩ := hmade.copied
  have hvalue := hcopied.reflects.value_ends hlt
  have hoverflow : Ends (fun _ => True) Fault.IsOverflow (t.timeAt target) := by
    unfold timeAt
    cases target.departure with
    | false => exact (hvalue .arrival).mono (fun _ _ => trivial) fun _ he => he.1
    | true => exact (hvalue .departure).mono (fun _ _ => trivial) fun _ he => he.1
  rw [shift_of_lt hplain hlt]
  refine Ends.ofChecked (moveTo_ends ?_)
  show Ends _ _ (t.timeAt target)
  cases hread : t.timeAt target with
  | error f =>
      rw [hread] at hoverflow
      refine ⟨hoverflow, ?_⟩
      rintro ⟨current, hcurrent, _⟩
      cases hread.symm.trans hcurrent
  | ok current =>
      rintro ⟨other, hother, hrange⟩
      cases hread.symm.trans hother
      exact hrange

theorem timeAt_of_shift (hplain : t.overlay = none) (h : t.shift target = .ok t')
    (htime : InRange target.time) : t'.timeAt target = .ok target.time := by
  obtain ⟨base, hbase, rfl⟩ := withShift_of_shift hplain h
  have hplain' : (t.withShift (target.time - base)).overlay = none := hplain
  rw [timeAt_eq hplain']
  refine bind_eq_ok_iff.mpr ⟨base, Checked.get_eq_ok_iff.mpr hbase, ?_⟩
  have hsum : target.time = base + (target.time - base) := by omega
  exact Checked.add_eq_ok_iff.mpr ⟨htime, hsum⟩

/-! ## Several shifts -/

/-- What the time shift was before does not matter, as long as nothing overflows. -/
theorem shift_collapse (hplain : t.overlay = none) {timeShift : Int}
    (h : (t.shift target).Settles) (h' : ((t.withShift timeShift).shift target).Settles) :
    (t.withShift timeShift).shift target = t.shift target := by
  have hplain' : (t.withShift timeShift).overlay = none := hplain
  by_cases hlt : target.stop < t.stopCount
  · obtain ⟨u, hu⟩ := ok_of_settles hplain hlt h
    obtain ⟨u', hu'⟩ := ok_of_settles hplain' hlt h'
    obtain ⟨base, hbase, rfl⟩ := withShift_of_shift hplain hu
    obtain ⟨base', hbase', rfl⟩ := withShift_of_shift hplain' hu'
    obtain rfl : base = base' := Option.some.inj (hbase.symm.trans hbase')
    rw [hu, hu']
    rfl
  · have hle := Nat.le_of_not_lt hlt
    rw [shift_of_le hplain hle, shift_of_le hplain' hle]
    rfl

theorem withShift_of_shiftAll (hplain : t.overlay = none) {targets : List Target}
    (h : t.shiftAll targets = .ok t') : ∃ timeShift, t' = t.withShift timeShift := by
  induction targets generalizing t with
  | nil =>
      cases h
      exact ⟨t'.timeShift, rfl⟩
  | cons target targets ih =>
      rw [shiftAll, List.foldlM_cons] at h
      obtain ⟨first, hfirst, hrest⟩ := bind_eq_ok_iff.mp h
      obtain ⟨base, _, rfl⟩ := withShift_of_shift hplain hfirst
      exact ih (t := t.withShift (target.time - base)) hplain hrest

theorem shift_of_shiftAll (hplain : t.overlay = none) {targets : List Target} {last : Target}
    (h : t.shiftAll (targets ++ [last]) = .ok t') (hsettles : (t.shift last).Settles) :
    t.shift last = .ok t' := by
  rw [shiftAll, List.foldlM_append] at h
  obtain ⟨before, hbefore, h⟩ := bind_eq_ok_iff.mp h
  rw [List.foldlM_cons] at h
  obtain ⟨after, hlast, h⟩ := bind_eq_ok_iff.mp h
  cases h
  obtain ⟨timeShift, rfl⟩ := withShift_of_shiftAll hplain hbefore
  have hcollapse := shift_collapse hplain hsettles (by rw [hlast]; trivial)
  exact hcollapse.symm.trans hlast

/-! ## Moving as a whole -/

theorem get_add_moved {base : List Int} {shift : Int} {stop : Nat} {time : Int}
    (h : (Checked.get base stop >>= fun b => Checked.add b shift) = .ok time) (seconds : Int) :
    (Checked.get base stop >>= fun b => Checked.add b (shift + seconds)) =
      Checked.add time seconds := by
  obtain ⟨b, hb, hadd⟩ := bind_eq_ok_iff.mp h
  obtain ⟨_, rfl⟩ := Checked.add_eq_ok_iff.mp hadd
  rw [hb]
  exact Checked.add_congr (Int.add_assoc b shift seconds).symm

theorem moved_scheduledArrival {stop : Nat} {time : Int} (h : t.scheduledArrival stop = .ok time)
    (seconds : Int) : (t.moved seconds).scheduledArrival stop = Checked.add time seconds :=
  get_add_moved h seconds

theorem moved_scheduledDeparture {stop : Nat} {time : Int}
    (h : t.scheduledDeparture stop = .ok time) (seconds : Int) :
    (t.moved seconds).scheduledDeparture stop = Checked.add time seconds :=
  get_add_moved h seconds

/-- What is read at a stop has moved, too, unless it is out of range. -/
theorem moved_halt_ends (hplain : t.overlay = none) {stop : Nat} {h : Halt}
    (hread : t.halt stop = .ok h) (seconds : Int) :
    Ends (· = { arrival := h.arrival + seconds, departure := h.departure + seconds })
      Fault.IsOverflow ((t.moved seconds).halt stop) := by
  obtain ⟨harrival, hdeparture⟩ := halt_eq_ok_iff.mp hread
  have hplain' : (t.moved seconds).overlay = none := hplain
  have harrival' : (t.moved seconds).arrival stop = Checked.add h.arrival seconds := by
    have hscheduled := (value_of_overlay_none hplain .arrival stop).symm.trans harrival
    have hmoved := moved_scheduledArrival hscheduled seconds
    exact (value_of_overlay_none hplain' .arrival stop).trans hmoved
  have hdeparture' : (t.moved seconds).departure stop = Checked.add h.departure seconds := by
    have hscheduled := (value_of_overlay_none hplain .departure stop).symm.trans hdeparture
    have hmoved := moved_scheduledDeparture hscheduled seconds
    exact (value_of_overlay_none hplain' .departure stop).trans hmoved
  unfold halt
  rw [harrival', hdeparture']
  refine Ends.bind (Checked.add_exactly _ _).overflows ?_
  rintro _ rfl
  refine Ends.bind (Checked.add_exactly _ _).overflows ?_
  rintro _ rfl
  rfl

/-- Times that have all moved are in order or not as they were. The bound moves with them. -/
theorem moved_violationFrom_ends (hplain : t.overlay = none) {bound : Option Int}
    {stops : List Nat} {answer : Option TimeViolation}
    (h : t.violationFrom bound stops = .ok answer) (seconds : Int) :
    Ends (· = answer)
      (Fault.OverflowsUnless (∀ stop ∈ stops, ∃ h, (t.moved seconds).halt stop = .ok h))
      ((t.moved seconds).violationFrom (bound.map (· + seconds)) stops) := by
  induction stops generalizing bound with
  | nil =>
      cases h
      rfl
  | cons stop rest ih =>
      rw [violationFrom_cons_eq] at h
      obtain ⟨first, hfirst, h⟩ := bind_eq_ok_iff.mp h
      have hends := moved_halt_ends hplain hfirst seconds
      rw [violationFrom_cons_eq]
      refine Ends.bind_cases (fun f hf => ?_) fun later hlater => ?_
      · rw [hf] at hends
        refine ⟨hends, fun hreads => ?_⟩
        obtain ⟨_, hreads⟩ := hreads stop List.mem_cons_self
        cases hf.symm.trans hreads
      rw [hlater] at hends
      obtain rfl : later = _ := hends
      have hany : (bound.map (· + seconds)).any (fun p => first.arrival + seconds < p) =
          bound.any fun p => first.arrival < p := by
        rw [Option.any_map]
        simp only [Int.add_lt_add_iff_right]
      simp only [Int.add_lt_add_iff_right, hany]
      by_cases hdwell : first.departure < first.arrival
      · rw [if_pos hdwell] at h ⊢
        cases h
        rfl
      rw [if_neg hdwell] at h ⊢
      by_cases hrunning : bound.any fun p => first.arrival < p
      · rw [if_pos hrunning] at h ⊢
        cases h
        rfl
      rw [if_neg hrunning] at h ⊢
      exact (ih h).unless_mono fun hreads stop hstop => hreads stop (List.mem_cons_of_mem _ hstop)

theorem moved_firstViolation_ends (hplain : t.overlay = none) {answer : Option TimeViolation}
    (h : t.firstViolation = .ok answer) (seconds : Int) :
    Ends (· = answer) (Fault.OverflowsUnless (∃ halts, (t.moved seconds).halts = .ok halts))
      (t.moved seconds).firstViolation := by
  refine (moved_violationFrom_ends hplain h seconds).unless_mono ?_
  rintro ⟨halts, hread⟩ stop hstop
  obtain ⟨first, _, hfirst⟩ := (getElem?_of_halts hread).2 stop (List.mem_range.mp hstop)
  exact ⟨first, hfirst⟩

/-! ## Stop times -/

theorem builtFrom_of_build {trip : Trip} {stops : List StopTime} {interner interner' : Interner}
    (h : build trip stops interner = .ok (t, interner')) : t.BuiltFrom stops interner' := by
  obtain ⟨_, htrip, _⟩ := schedules_of_build h
  rw [← htrip] at h
  exact ⟨interner, t, h, rfl⟩

theorem BuiltFrom.moved {stops : List StopTime} {interner : Interner}
    (h : t.BuiltFrom stops interner) (seconds : Int) :
    (t.moved seconds).BuiltFrom (stops.map (·.moved seconds)) interner := by
  obtain ⟨before, start, hbuild, heq⟩ := h
  refine ⟨before, _, build_moved hbuild rfl seconds, ?_⟩
  rw [heq]
  rfl

/-- A trip that has no realtime data is built from stop times, wherever shifts have brought it. -/
theorem Made.builtFrom (hmade : t.Made) (hplain : t.overlay = none) :
    ∃ stops interner, t.BuiltFrom stops interner := by
  obtain ⟨trip, stops, before, start, interner, hbuild, hbecomes⟩ := hmade
  induction hbecomes with
  | refl => exact ⟨stops, interner, builtFrom_of_build hbuild⟩
  | @tail earlier later _ hnext ih =>
      obtain ⟨c, attempt, hrun, rfl⟩ := hnext
      cases Change.does_of_run hrun with
      | refuse _ => exact ih hplain
      | set _ _ _ _ => cases hplain
      | @move stop time current _ hnone _ =>
          obtain ⟨stops', interner', hbuilt⟩ := ih (shiftRefusal?_eq_none_iff.mp hnone).1
          exact ⟨_, interner', hbuilt.moved (time - current)⟩
      | close _ _ => cases hplain
      | stay _ => exact ih hplain
      | code code =>
          obtain ⟨stops', interner', before', start', hbuild', heq⟩ := ih hplain
          refine ⟨stops', interner', before', start', hbuild', ?_⟩
          rw [heq]

/-! ## Statement -/

theorem movesBy_moved (hplain : t.overlay = none) (seconds : Int) :
    t.MovesBy (t.moved seconds) seconds := by
  refine ⟨rfl, ?_, ?_, ?_, ?_⟩
  · exact fun _ _ h => moved_scheduledArrival h seconds
  · exact fun _ _ h => moved_scheduledDeparture h seconds
  · exact fun _ h => moved_firstViolation_ends hplain h seconds
  · intro stops interner hbuilt other
    obtain ⟨before, start, hbuild, heq⟩ := hbuilt.moved seconds
    obtain ⟨u, other', hother, huntagged, hsame⟩ := build_alike hbuild other
    refine ⟨u, other', hother, ?_, fun hle => ?_⟩
    · have hcode := congrArg (fun t' : TripTimes => { t' with serviceCode := t.serviceCode })
        huntagged
      rw [heq]
      exact hcode
    · rw [hsame hle]
      exact heq.symm

theorem shift_rigid (hmade : t.Made) (hplain : t.overlay = none) :
    (∃ stops interner, t.BuiltFrom stops interner) ∧
    (∀ target : Target, target.stop < t.stopCount → InRange target.time →
      Ends (fun t' => t'.timeAt target = .ok target.time ∧
          (∃ current, t.timeAt target = .ok current ∧ t.MovesBy t' (target.time - current)) ∧
          ∀ next, (t.shift next).Settles → (t'.shift next).Settles → t'.shift next = t.shift next)
        (Failure.OverflowsUnless (t.Reaches target)) (t.shift target)) ∧
    ∀ targets last t', t.shiftAll (targets ++ [last]) = .ok t' → (t.shift last).Settles →
      t.shift last = .ok t' := by
  refine ⟨hmade.builtFrom hplain, ?_, fun _ _ _ => shift_of_shiftAll hplain⟩
  intro target hlt htime
  refine (shift_ends hmade hplain hlt).mono ?_ fun _ he => he
  intro t' hshift
  refine ⟨timeAt_of_shift hplain hshift htime, ?_, ?_⟩
  · obtain ⟨current, hcurrent, rfl⟩ := moved_of_shift hplain hshift
    exact ⟨current, hcurrent, movesBy_moved hplain _⟩
  · obtain ⟨base, _, rfl⟩ := withShift_of_shift hplain hshift
    exact fun next => shift_collapse hplain

/-- Noon is when the crossing leaves its call. -/
def noon : Target := { stop := 1, time := 43200, departure := true }

/-- In the evening it gets to its last stop. -/
def evening : Target := { stop := 2, time := 64800, departure := false }

/-- The crossing has a service code and is shifted to noon, then to the evening. -/
theorem crossing_shifts :
    ∃ start interner t midday later, build { id := "F" } crossing {} = .ok (start, interner) ∧
      t = { start with serviceCode := some 7 } ∧ t.shift noon = .ok midday ∧
      midday.timeAt noon = .ok 43200 ∧ midday.scheduledArrival 0 = .ok 42540 ∧
      midday.firstViolation = .ok none ∧
      (∃ u interner', build { id := "F" } (crossing.map (·.moved 6540)) interner =
        .ok (u, interner') ∧ { u with serviceCode := some 7 } = midday) ∧
      midday.shift evening = .ok later ∧ t.shift evening = .ok later := by
  have hruns : ∃ start interner t midday later,
      build { id := "F" } crossing {} = .ok (start, interner) ∧
      t = { start with serviceCode := some 7 } ∧ t.trip = { id := "F" } ∧
      t.serviceCode = some 7 ∧ t.overlay = none ∧ t.stopCount = 3 ∧ t.timeAt noon = .ok 36660 ∧
      t.scheduledArrival 0 = .ok 36000 ∧ t.firstViolation = .ok none ∧
      t.shift noon = .ok midday ∧ (∃ halts, midday.halts = .ok halts) ∧
      t.shiftAll [noon, evening] = .ok later ∧ midday.shift evening = .ok later ∧
      (t.shift evening).Settles :=
    ⟨_, _, _, _, _, rfl, rfl, rfl, rfl, rfl, rfl, rfl, rfl, rfl, rfl, ⟨_, rfl⟩, rfl, rfl, trivial⟩
  obtain ⟨start, interner, t, midday, later, hbuild, heq, htrip, hcode, hplain, hcount, hcurrent,
    harrival, hordered, hnoon, hreads, hboth, hevening, hsettles⟩ := hruns
  have hmade : t.Made := by
    have hstart : start.Made := ⟨_, _, _, start, interner, hbuild, .refl start⟩
    rw [heq]
    exact hstart.becomes (becomes_of_run (c := .serviceCode 7) rfl)
  have hbuilt : t.BuiltFrom crossing interner := by
    refine ⟨{}, start, ?_, ?_⟩
    · rw [htrip]
      exact hbuild
    · rw [hcode]
      exact heq
  obtain ⟨_, hshift, hlast⟩ := shift_rigid hmade hplain
  have hhits := hshift noon (by rw [hcount]; decide) (by decide)
  rw [hnoon] at hhits
  obtain ⟨htime, ⟨_, hcurrent', hmoves⟩, _⟩ := hhits
  obtain rfl := Except.ok.inj (hcurrent.symm.trans hcurrent')
  obtain ⟨_, hviolation, rfl⟩ :=
    (hmoves.firstViolation none hordered).exists_ok fun _ _ hoverflows => hoverflows.2 hreads
  obtain ⟨u, interner', hagain, _, hsame⟩ := hmoves.built crossing interner hbuilt interner
  rw [htrip] at hagain
  rw [hcode] at hsame
  exact ⟨start, interner, t, midday, later, hbuild, heq, hnoon, htime,
    hmoves.scheduledArrival 0 _ harrival, hviolation,
    ⟨u, interner', hagain, hsame (.refl interner)⟩, hevening,
    hlast [noon] evening later hboth hsettles⟩

end TripTimes

end Journey
