import Journey.Proofs.Clock.Written
import Journey.Proofs.Itinerary.Rules
import Journey.Proofs.Timetable.Regular

/-!
# What the line of an itinerary tells

An itinerary is written on one line, leg after leg, with nothing around the free text of a route
name. Still the line can be read in one way only, as long as no route name has a tilde:

* A **tilde** ends how a leg leads on (`Leg.way`), and the next one ends its stop, so
  the line is cut leg by leg (`Leg.line_unique`).
* A **walk** begins with a letter that no mode begins with. A **ride** has its mode up to
  the first blank and its times behind the last two, so the route is what is left
  (`Leg.ride_unique`), whatever blanks, digits and brackets it has.
* The **summary** has no tilde and its parts no blanks and no commas
  (`Itinerary.summaryLine_unique`).

**Statement** (`Itinerary.text_determines`): two itineraries with the same line have as many
legs, of the same kinds, alike in all that is written of them, and the same start, end
and cost. What the line does not tell are the costs of the legs, where rides are boarded,
and the times of walks.
-/

namespace Journey

/-! ## Characters -/

namespace Clock

/-- A character that times and durations are written with. -/
def isClock (c : Char) : Bool := isNumeral c || c ∈ [':', 'h', 'm', 's']

theorem isClock_of_isNumeral {c : Char} (h : isNumeral c = true) : isClock c = true := by
  simp [isClock, h]

theorem isClock_marked {write : Int → String} (hwrite : Writes write)
    {numbers : List (Int × Char)} (hmarks : ∀ p ∈ numbers, isClock p.2 = true) :
    ∀ c ∈ marked write numbers, isClock c = true := by
  induction numbers with
  | nil => exact fun c hc => absurd hc List.not_mem_nil
  | cons p rest ih =>
      obtain ⟨n, mark⟩ := p
      obtain ⟨hmark, hrest⟩ := List.forall_mem_cons.mp hmarks
      intro c hc
      rcases List.mem_append.mp hc with hc | hc
      · exact isClock_of_isNumeral (hwrite.isNumeral n c hc)
      · rcases List.mem_cons.mp hc with rfl | hc
        · exact hmark
        · exact ih hrest c hc

/-- A text that is spelled with clock marks has clock characters only. -/
theorem Spelled.isClock {write : Int → String} (hwrite : Writes write) {p : Parts}
    {numbers : List (Int × Char)} {text : List Char} (h : Spelled write p numbers text)
    (hmarks : ∀ p ∈ numbers, Clock.isClock p.2 = true) : ∀ c ∈ text, Clock.isClock c = true := by
  intro c hc
  rw [h.text_eq, Spelled.toList_sign] at hc
  rcases List.mem_append.mp hc with hc | hc
  · split at hc
    · rw [List.mem_singleton.mp hc]
      rfl
    · exact absurd hc List.not_mem_nil
  · exact isClock_marked hwrite hmarks c hc

theorem isClock_inFull (p : Parts) : ∀ q ∈ p.inFull, isClock q.2 = true := by
  simp [Parts.inFull, isClock]

theorem isClock_inShort (p : Parts) : ∀ q ∈ p.inShort, isClock q.2 = true := by
  unfold Parts.inShort
  split
  · simp [isClock]
  · exact isClock_inFull p

theorem isClock_inUnits (p : Parts) : ∀ q ∈ p.inUnits, isClock q.2 = true := by
  unfold Parts.inUnits
  split_ifs <;> simp [isClock]

theorem isClock_long (time : Int) : ∀ c ∈ (long time).toList, isClock c = true := by
  intro c hc
  exact (spelled_long time).isClock writes_twoPlaces (isClock_inFull _) c
    (List.mem_append_left _ hc)

theorem isClock_compact (time : Int) : ∀ c ∈ (compact time).toList, isClock c = true := by
  intro c hc
  exact (spelled_compact time).isClock writes_twoPlaces (isClock_inShort _) c
    (List.mem_append_left _ hc)

theorem isClock_duration (seconds : Int) : ∀ c ∈ (duration seconds).toList, isClock c = true :=
  (spelled_duration seconds).isClock writes_toString (isClock_inUnits _)

end Clock

/-- Where characters of a class begin behind a mark and go on to the end, a text is cut in one
way only. -/
theorem cut_last_unique {inside : Char → Bool} {front front' back back' : List Char}
    {mark mark' : Char} (hback : ∀ c ∈ back, inside c = true)
    (hback' : ∀ c ∈ back', inside c = true) (hmark : inside mark = false)
    (hmark' : inside mark' = false) (h : front ++ mark :: back = front' ++ mark' :: back') :
    front = front' ∧ back = back' := by
  have hreverse := congrArg List.reverse h
  simp only [List.reverse_append, List.reverse_cons, List.append_assoc,
    List.singleton_append] at hreverse
  have hturned : ∀ c ∈ back.reverse, inside c = true := fun c hc =>
    hback c (List.mem_reverse.mp hc)
  have hturned' : ∀ c ∈ back'.reverse, inside c = true := fun c hc =>
    hback' c (List.mem_reverse.mp hc)
  obtain ⟨hb, _, hf⟩ := Clock.cut_unique hturned hturned' hmark hmark' hreverse
  exact ⟨List.reverse_injective hf, List.reverse_injective hb⟩

namespace Mode

theorem label_injective : Function.Injective label := by
  intro m m' h
  cases m <;> cases m' <;> simp_all [label]

/-- A mode is written with capital letters. -/
theorem isUpper_label (m : Mode) : ∀ c ∈ m.label.toList, c.isUpper = true := by
  have hall : m.label.toList.all Char.isUpper = true := by cases m <;> rfl
  exact List.all_eq_true.mp hall

/-- No mode begins like a walk. -/
theorem exists_label (m : Mode) : ∃ c rest, m.label.toList = c :: rest ∧ c ≠ 'W' := by
  cases m <;> exact ⟨_, _, rfl, by decide⟩

end Mode

/-! ## One leg -/

namespace Leg

/-- How a leg leads on, as it is written. -/
def way : Leg → List Char
  | transit t =>
    t.trip.value.pattern.mode.label.toList ++ ' ' ::
      ((t.trip.value.pattern.route.toList ++ ' ' :: (Clock.compact t.fromTime).toList) ++
        ' ' :: (Clock.compact t.toTime).toList)
  | l => "Walk ".toList ++ (Clock.duration (l.toTime - l.fromTime)).toList

/-- A leg as it is written: its stop stands between two tildes, if there is one. -/
def line (l : Leg) : List Char :=
  match l.toStop? with
  | some stop => (l.way ++ [' ']) ++ '~' :: ' ' :: (Nat.toDigits 10 stop ++ ' ' :: ['~', ' '])
  | none => l.way ++ [' ']

theorem duration_eq {l : Leg} {d : Int} (h : l.duration = .ok d) : d = l.toTime - l.fromTime :=
  (Checked.sub_eq_ok_iff.mp h).2

theorem line_of_legText {l : Leg} {text : String} (h : Itinerary.legText l = .ok text) :
    text.toList = l.line := by
  cases l with
  | transit t =>
      obtain rfl := Except.ok.inj h
      simp [line, way, toStop?, TransitLeg.routeLabel, Pattern.label, toString]
  | access w | transfer w =>
      obtain ⟨d, hd, htext⟩ := bind_eq_ok_iff.mp h
      obtain rfl := Except.ok.inj htext
      obtain rfl := duration_eq hd
      simp [line, way, toStop?, toString]
  | egress w =>
      obtain ⟨d, hd, htext⟩ := bind_eq_ok_iff.mp h
      obtain rfl := Except.ok.inj htext
      obtain rfl := duration_eq hd
      simp [line, way, toStop?, toString]

end Leg

/-- What is written of a ride but the stop it leads to: mode, route and times. -/
def TransitLeg.shown (t : TransitLeg) : Mode × String × Int × Int :=
  (t.trip.value.pattern.mode, t.trip.value.pattern.route, t.fromTime, t.toTime)

namespace Leg

variable {l l' : Leg} {t t' : TransitLeg}

/-- Two legs of one kind that are alike in all that is written of them: the stop they
lead to, if there is one, mode, route and times of a ride, and how long a walk takes. -/
structure Alike (l l' : Leg) : Prop where
  kind : l.kind = l'.kind
  toStop : l.toStop? = l'.toStop?
  shown : l.transit?.map TransitLeg.shown = l'.transit?.map TransitLeg.shown
  duration : l.toTime - l.fromTime = l'.toTime - l'.fromTime

theorem way_of_walk (h : l.transit? = none) :
    l.way = "Walk ".toList ++ (Clock.duration (l.toTime - l.fromTime)).toList := by
  cases l with
  | transit t => cases h
  | access w | transfer w | egress w => rfl

/-- Walks that are written alike take as long. -/
theorem walk_unique (hl : l.transit? = none) (hl' : l'.transit? = none) (h : l.way = l'.way) :
    l.toTime - l.fromTime = l'.toTime - l'.fromTime := by
  rw [way_of_walk hl, way_of_walk hl'] at h
  exact Clock.duration_injective (String.toList_injective (List.append_cancel_left h))

/-- The mode of a ride ends at the first blank and its times stand behind the last two, so
that the route is what is left between them. -/
theorem ride_unique (h : (transit t).way = (transit t').way) : t.shown = t'.shown := by
  obtain ⟨hmode, _, hrest⟩ := Clock.cut_unique (Mode.isUpper_label _) (Mode.isUpper_label _)
    (by decide) (by decide) h
  obtain ⟨hrest, hto⟩ := cut_last_unique (Clock.isClock_compact _) (Clock.isClock_compact _)
    (by decide) (by decide) hrest
  obtain ⟨hroute, hfrom⟩ := cut_last_unique (Clock.isClock_compact _) (Clock.isClock_compact _)
    (by decide) (by decide) hrest
  unfold TransitLeg.shown
  rw [Mode.label_injective (String.toList_injective hmode), String.toList_injective hroute,
    Clock.compact_injective (String.toList_injective hfrom),
    Clock.compact_injective (String.toList_injective hto)]

/-- No ride is written like a walk. -/
theorem way_ne (hl : l.transit? = none) : l.way ≠ (transit t).way := by
  obtain ⟨c, rest, hlabel, hc⟩ := Mode.exists_label t.trip.value.pattern.mode
  rw [way_of_walk hl, way, hlabel]
  intro h
  exact hc (List.cons.inj h).1.symm

/-- How a leg leads on tells whether it is a ride, which one, and how long it takes. -/
theorem way_unique (h : l.way = l'.way) :
    l.transit?.map TransitLeg.shown = l'.transit?.map TransitLeg.shown ∧
      l.toTime - l.fromTime = l'.toTime - l'.fromTime := by
  cases hl : l.transit? with
  | none =>
      cases hl' : l'.transit? with
      | none => exact ⟨rfl, walk_unique hl hl' h⟩
      | some t' =>
          rw [Itinerary.eq_transit hl'] at h
          exact absurd h (way_ne hl)
  | some t =>
      obtain rfl := Itinerary.eq_transit hl
      cases hl' : l'.transit? with
      | none => exact absurd h.symm (way_ne hl')
      | some t' =>
          obtain rfl := Itinerary.eq_transit hl'
          have hshown := ride_unique h
          refine ⟨congrArg some hshown, ?_⟩
          simp only [TransitLeg.shown, Prod.mk.injEq] at hshown
          obtain ⟨_, _, hfrom, hto⟩ := hshown
          simp only [toTime, fromTime, hfrom, hto]

/-! ## Where a leg ends -/

/-- The name of the route has no tilde, where the leg is a ride. -/
def Plain (l : Leg) : Prop :=
  ∀ t, l.transit? = some t → '~' ∉ t.trip.value.pattern.route.toList

theorem tilde_not_mem {inside : Char → Bool} {text : List Char}
    (h : ∀ c ∈ text, inside c = true) (hout : inside '~' = false) : '~' ∉ text := by
  intro hmem
  rw [h '~' hmem] at hout
  cases hout

theorem tilde_not_mem_way (h : l.Plain) : '~' ∉ l.way := by
  cases hl : l.transit? with
  | none =>
      have hduration := tilde_not_mem (Clock.isClock_duration (l.toTime - l.fromTime)) (by decide)
      rw [way_of_walk hl, List.mem_append]
      rintro (hmem | hmem)
      · exact absurd hmem (by decide)
      · exact hduration hmem
  | some t =>
      have hmode := tilde_not_mem (Mode.isUpper_label t.trip.value.pattern.mode) (by decide)
      have hfrom := tilde_not_mem (Clock.isClock_compact t.fromTime) (by decide)
      have hto := tilde_not_mem (Clock.isClock_compact t.toTime) (by decide)
      obtain rfl := Itinerary.eq_transit hl
      simp [way, hmode, hfrom, hto, h t rfl]

/-- The line of a leg that leads to a stop is told from what follows it. -/
theorem line_unique (hl : l.Plain) (hl' : l'.Plain) (hstop : l.kind ≠ .egress)
    (hstop' : l'.kind ≠ .egress) {rest rest' : List Char} (h : l.line ++ rest = l'.line ++ rest') :
    l.way = l'.way ∧ l.toStop? = l'.toStop? ∧ rest = rest' := by
  obtain ⟨stop, hstop⟩ := Itinerary.exists_toStop hstop
  obtain ⟨stop', hstop'⟩ := Itinerary.exists_toStop hstop'
  simp only [line, hstop, hstop', List.append_assoc (_ ++ [' ']), List.cons_append] at h
  have hway : ∀ {l : Leg}, l.Plain → ∀ c ∈ l.way ++ [' '], (c != '~') = true := by
    intro l hl c hc
    rcases List.mem_append.mp hc with hc | hc
    · exact bne_iff_ne.mpr fun heq => tilde_not_mem_way hl (heq ▸ hc)
    · rw [List.mem_singleton.mp hc]
      decide
  obtain ⟨hways, _, hrest⟩ := Clock.cut_unique (hway hl) (hway hl')
    (by decide) (by decide) h
  simp only [List.cons.injEq, true_and, List.append_assoc, List.cons_append] at hrest
  obtain ⟨hstops, _, hrest⟩ := Clock.cut_unique (fun c => Clock.isDigit_of_mem_toDigits)
    (fun c => Clock.isDigit_of_mem_toDigits) (by decide) (by decide) hrest
  have hnumber := congrArg (Nat.ofDigitChars 10 · 0) hstops
  simp only [Nat.ofDigitChars_ten_toDigits] at hnumber
  refine ⟨List.append_cancel_right hways, ?_, ?_⟩
  · rw [hstop, hstop', hnumber]
  · simpa using hrest

/-- A leg that stands between an access and an egress. -/
def Inside (l : Leg) : Prop := l.kind ≠ .access ∧ l.kind ≠ .egress

/-- Legs inside are of one kind if both are rides or neither is. -/
theorem kind_eq_of_inside (hl : l.Inside) (hl' : l'.Inside)
    (h : l.transit?.map TransitLeg.shown = l'.transit?.map TransitLeg.shown) :
    l.kind = l'.kind := by
  cases l with
  | access w => exact absurd rfl hl.1
  | egress w => exact absurd rfl hl.2
  | transit t =>
      cases l' with
      | access w => exact absurd rfl hl'.1
      | egress w => exact absurd rfl hl'.2
      | transit t' => rfl
      | transfer w => cases h
  | transfer w =>
      cases l' with
      | access w => exact absurd rfl hl'.1
      | egress w => exact absurd rfl hl'.2
      | transit t' => cases h
      | transfer w => rfl

/-- The walk from the last stop ends at the first blank behind its duration. -/
theorem egress_unique {last last' : EgressLeg} {rest rest' : List Char}
    (h : (egress last).line ++ rest = (egress last').line ++ rest') :
    (egress last).Alike (egress last') ∧ rest = rest' := by
  simp only [line, toStop?, way, List.append_assoc, List.singleton_append] at h
  obtain ⟨hduration, _, hrest⟩ := Clock.cut_unique (Clock.isClock_duration _)
    (Clock.isClock_duration _) (by decide) (by decide) (List.append_cancel_left h)
  have hequal := Clock.duration_injective (String.toList_injective hduration)
  exact ⟨⟨rfl, rfl, rfl, hequal⟩, hrest⟩

theorem tilde_not_mem_egress (last : EgressLeg) : '~' ∉ (egress last).line := by
  have hplain : (egress last).Plain := by
    intro t ht
    cases ht
  have hway := tilde_not_mem_way hplain
  simp [line, toStop?, hway]

theorem tilde_mem_line (h : l.kind ≠ .egress) : '~' ∈ l.line := by
  obtain ⟨stop, hstop⟩ := Itinerary.exists_toStop h
  simp [line, hstop]

end Leg

namespace Itinerary

variable {i i' : Itinerary} {legs legs' middle middle' : List Leg} {first first' : AccessLeg}
  {last last' : EgressLeg} {tail tail' : List Char}

/-! ## All legs -/

/-- Legs of the middle are told apart one by one, up to where no tilde follows. -/
theorem middle_unique (hinside : ∀ l ∈ middle, l.Inside) (hinside' : ∀ l ∈ middle', l.Inside)
    (hplain : ∀ l ∈ middle, l.Plain) (hplain' : ∀ l ∈ middle', l.Plain) (htail : '~' ∉ tail)
    (htail' : '~' ∉ tail')
    (h : middle.flatMap Leg.line ++ tail = middle'.flatMap Leg.line ++ tail') :
    List.Forall₂ Leg.Alike middle middle' ∧ tail = tail' := by
  induction middle generalizing middle' with
  | nil =>
      cases middle' with
      | nil => exact ⟨.nil, h⟩
      | cons l' rest' =>
          -- a leg has a tilde and the tail has none
          have hmem : '~' ∈ l'.line := Leg.tilde_mem_line (hinside' l' List.mem_cons_self).2
          have htilde : '~' ∈ (l' :: rest').flatMap Leg.line ++ tail' := by simp [hmem]
          rw [← h] at htilde
          exact absurd htilde htail
  | cons l rest ih =>
      obtain ⟨hl, hrest⟩ := List.forall_mem_cons.mp hinside
      obtain ⟨hpl, hprest⟩ := List.forall_mem_cons.mp hplain
      cases middle' with
      | nil =>
          have htilde : '~' ∈ (l :: rest).flatMap Leg.line ++ tail := by
            simp [Leg.tilde_mem_line hl.2]
          rw [h] at htilde
          exact absurd htilde htail'
      | cons l' rest' =>
          obtain ⟨hl', hrest'⟩ := List.forall_mem_cons.mp hinside'
          obtain ⟨hpl', hprest'⟩ := List.forall_mem_cons.mp hplain'
          simp only [List.flatMap_cons, List.append_assoc] at h
          obtain ⟨hway, hstop, h⟩ := Leg.line_unique hpl hpl' hl.2 hl'.2 h
          obtain ⟨hshown, hduration⟩ := Leg.way_unique hway
          obtain ⟨halike, htails⟩ := ih hrest hrest' hprest hprest' h
          have hkind := Leg.kind_eq_of_inside hl hl' hshown
          exact ⟨.cons ⟨hkind, hstop, hshown, hduration⟩ halike, htails⟩

/-- The legs of a frame are told apart, and so is what follows them. -/
theorem frame_unique (hinside : ∀ l ∈ middle, l.Inside) (hinside' : ∀ l ∈ middle', l.Inside)
    (hplain : ∀ l ∈ frame first middle last, l.Plain)
    (hplain' : ∀ l ∈ frame first' middle' last', l.Plain) (htail : '~' ∉ tail)
    (htail' : '~' ∉ tail')
    (h : (frame first middle last).flatMap Leg.line ++ tail =
      (frame first' middle' last').flatMap Leg.line ++ tail') :
    List.Forall₂ Leg.Alike (frame first middle last) (frame first' middle' last') ∧
      tail = tail' := by
  obtain ⟨hfirst, hrest⟩ := List.forall_mem_cons.mp hplain
  obtain ⟨hfirst', hrest'⟩ := List.forall_mem_cons.mp hplain'
  have hmiddle := (List.forall_mem_append.mp hrest).1
  have hmiddle' := (List.forall_mem_append.mp hrest').1
  simp only [frame, List.flatMap_cons, List.flatMap_append, List.flatMap_nil, List.append_nil,
    List.append_assoc] at h
  have hkind : LegKind.access ≠ .egress := by decide
  obtain ⟨hway, hstop, h⟩ := Leg.line_unique hfirst hfirst' hkind hkind h
  obtain ⟨hshown, hduration⟩ := Leg.way_unique hway
  have hend : '~' ∉ (Leg.egress last).line ++ tail := fun hmem =>
    (List.mem_append.mp hmem).elim (Leg.tilde_not_mem_egress last) htail
  have hend' : '~' ∉ (Leg.egress last').line ++ tail' := fun hmem =>
    (List.mem_append.mp hmem).elim (Leg.tilde_not_mem_egress last') htail'
  obtain ⟨halike, h⟩ := middle_unique hinside hinside' hmiddle hmiddle' hend hend' h
  obtain ⟨hlast, htails⟩ := Leg.egress_unique h
  have hall := List.rel_append (R := Leg.Alike) halike (.cons hlast .nil)
  exact ⟨.cons ⟨rfl, hstop, hshown, hduration⟩ hall, htails⟩

/-! ## The summary -/

/-- What stands behind the legs. -/
def summaryLine (i : Itinerary) : List Char :=
  '[' :: ((Clock.long i.startTime).toList ++ ' ' :: ((Clock.long i.endTime).toList ++ ' ' ::
    ((Clock.duration (i.endTime - i.startTime)).toList ++ ',' :: (" cost: ".toList ++
      ((toString i.cost).toList ++ [']'])))))

theorem flatMap_line {texts : List String} (h : legs.mapM legText = .ok texts) :
    texts.flatMap String.toList = legs.flatMap Leg.line := by
  induction legs generalizing texts with
  | nil =>
      rw [List.mapM_nil] at h
      cases h
      rfl
  | cons l rest ih =>
      rw [List.mapM_cons] at h
      obtain ⟨text, htext, h⟩ := bind_eq_ok_iff.mp h
      obtain ⟨texts, htexts, h⟩ := bind_eq_ok_iff.mp h
      cases h
      rw [List.flatMap_cons, List.flatMap_cons, Leg.line_of_legText htext, ih htexts]

/-- A line is written leg by leg, with the summary behind. -/
theorem line_of_text {text : String} (h : i.text = .ok text) :
    text.toList = i.legs.flatMap Leg.line ++ i.summaryLine := by
  obtain ⟨texts, htexts, h⟩ := bind_eq_ok_iff.mp h
  obtain ⟨summary, hsummary, h⟩ := bind_eq_ok_iff.mp h
  obtain ⟨d, hd, hsummary⟩ := bind_eq_ok_iff.mp hsummary
  obtain ⟨_, rfl⟩ := Checked.sub_eq_ok_iff.mp hd
  cases hsummary
  cases h
  rw [String.toList_append, String.toList_join, flatMap_line htexts]
  simp [summaryLine, toString]

theorem tilde_not_mem_summaryLine (i : Itinerary) : '~' ∉ i.summaryLine := by
  have hstart := Leg.tilde_not_mem (Clock.isClock_long i.startTime) (by decide)
  have hend := Leg.tilde_not_mem (Clock.isClock_long i.endTime) (by decide)
  have hduration :=
    Leg.tilde_not_mem (Clock.isClock_duration (i.endTime - i.startTime)) (by decide)
  have hcost := Leg.tilde_not_mem (Clock.writes_toString.isNumeral i.cost) (by decide)
  simpa [summaryLine, hstart, hend, hduration] using hcost

theorem summaryLine_unique (h : i.summaryLine = i'.summaryLine) :
    i.startTime = i'.startTime ∧ i.endTime = i'.endTime ∧ i.cost = i'.cost := by
  have h := (List.cons.inj h).2
  obtain ⟨hstart, _, h⟩ := Clock.cut_unique (Clock.isClock_long _) (Clock.isClock_long _)
    (by decide) (by decide) h
  obtain ⟨hend, _, h⟩ := Clock.cut_unique (Clock.isClock_long _) (Clock.isClock_long _)
    (by decide) (by decide) h
  obtain ⟨_, _, h⟩ := Clock.cut_unique (Clock.isClock_duration _) (Clock.isClock_duration _)
    (by decide) (by decide) h
  have hcost := List.append_cancel_right (List.append_cancel_left h)
  exact ⟨Clock.long_injective (String.toList_injective hstart),
    Clock.long_injective (String.toList_injective hend),
    Clock.writes_toString.injective (String.toList_injective hcost)⟩

/-! ## Statement -/

/-- The legs of an accepted itinerary stand in a frame. -/
theorem exists_legs {cost : Int} (h : ofLegs legs cost = .ok i) :
    ∃ first middle last, i.legs = frame first middle last ∧ ∀ l ∈ middle, l.Inside := by
  have hlegs := exists_ofLegs_iff.mp ⟨i, h⟩
  obtain ⟨first, middle, last, hframe, hinside⟩ := hlegs.exists_frame
  exact ⟨first, middle, last, (holds_of_ofLegs h hlegs).legs_eq.trans hframe, hinside⟩

/-- No route of the itinerary has a tilde in its name. -/
def Plain (i : Itinerary) : Prop := ∀ t ∈ i.transitLegs, '~' ∉ t.trip.value.pattern.route.toList

theorem Plain.leg (h : i.Plain) {l : Leg} (hl : l ∈ i.legs) : l.Plain :=
  fun t ht => h t (List.mem_filterMap.mpr ⟨l, hl, ht⟩)

theorem text_determines {cost cost' : Int} {text : String} (hi : ofLegs legs cost = .ok i)
    (hi' : ofLegs legs' cost' = .ok i') (hplain : i.Plain) (hplain' : i'.Plain)
    (htext : i.text = .ok text) (htext' : i'.text = .ok text) :
    List.Forall₂ Leg.Alike i.legs i'.legs ∧ i.startTime = i'.startTime ∧
      i.endTime = i'.endTime ∧ i.cost = i'.cost := by
  obtain ⟨first, middle, last, hframe, hinside⟩ := exists_legs hi
  obtain ⟨first', middle', last', hframe', hinside'⟩ := exists_legs hi'
  have hleg := @hplain.leg
  have hleg' := @hplain'.leg
  have hlines := (line_of_text htext).symm.trans (line_of_text htext')
  rw [hframe] at hleg
  rw [hframe'] at hleg'
  rw [hframe, hframe'] at hlines
  obtain ⟨halike, hsummary⟩ := frame_unique hinside hinside' (fun l hl => hleg hl)
    (fun l hl => hleg' hl) (tilde_not_mem_summaryLine i) (tilde_not_mem_summaryLine i') hlines
  rw [hframe, hframe']
  exact ⟨halike, summaryLine_unique hsummary⟩

/-- A change between two buses, the first of a route whose name has a blank and a bracket. The
instance of the first bus, the start of the walk between them and what each leg costs
are left open. -/
def changeOfBus (tag : Nat) (walkStart cost : Int) : List Leg :=
  [.access { fromTime := 0, toTime := 60, toStop := 1, cost },
   .transit { fromStop := 1, toStop := 2, fromTime := 100, toTime := 200, cost,
              trip := { tag, value := .bus "5 [00:00" [(1, 100, 100), (2, 200, 200)] },
              boardPosition := 0, alightPosition := 1 },
   .transfer { fromStop := 2, toStop := 3, fromTime := walkStart, toTime := walkStart + 50, cost },
   .transit { fromStop := 3, toStop := 4, fromTime := 400, toTime := 500, cost,
              trip := { tag := 1, value := .bus "6" [(3, 400, 400), (4, 500, 500)] },
              boardPosition := 0, alightPosition := 1 },
   .egress { fromStop := 4, fromTime := 500, toTime := 560, cost }]

/-- Two different changes of bus that are written alike. -/
theorem changeOfBus_alike :
    ∃ i i' text, ofLegs (changeOfBus 0 200 2) 12 = .ok i ∧
      ofLegs (changeOfBus 7 300 3) 12 = .ok i' ∧ i.Plain ∧ i'.Plain ∧ i.text = .ok text ∧
      i'.text = .ok text ∧ i ≠ i' ∧ List.Forall₂ Leg.Alike i.legs i'.legs := by
  have hplain : ∀ t ∈ (changeOfBus 0 200 2).filterMap Leg.transit?,
      '~' ∉ t.trip.value.pattern.route.toList := by decide
  have hplain' : ∀ t ∈ (changeOfBus 7 300 3).filterMap Leg.transit?,
      '~' ∉ t.trip.value.pattern.route.toList := by decide
  have hwritten : ∃ i i' text, ofLegs (changeOfBus 0 200 2) 12 = .ok i ∧
      ofLegs (changeOfBus 7 300 3) 12 = .ok i' ∧ i.legs = changeOfBus 0 200 2 ∧
      i'.legs = changeOfBus 7 300 3 ∧ i.text = .ok text ∧ i'.text = .ok text :=
    ⟨_, _, _, rfl, rfl, rfl, rfl, rfl, rfl⟩
  obtain ⟨i, i', text, hi, hi', hlegs, hlegs', htext, htext'⟩ := hwritten
  rw [← hlegs] at hplain
  rw [← hlegs'] at hplain'
  have hne : i ≠ i' := by
    rintro rfl
    exact absurd (hlegs.symm.trans hlegs') (by decide)
  obtain ⟨halike, _⟩ := text_determines hi hi' hplain hplain' htext htext'
  exact ⟨i, i', text, hi, hi', hplain, hplain', htext, htext', hne, halike⟩

end Itinerary

end Journey
