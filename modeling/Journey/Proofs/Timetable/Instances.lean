import Journey.Proofs.Timetable.Sharing
import Mathlib.Data.Finset.Card
import Mathlib.Data.List.Nodup

/-!
# One instance for each column

What an interner has answered, and what it holds. All arrays that it holds are taken
together (`Interner.arrays`), whichever table they are in:

* **one request** is answered with an array that is held, or with a new one, which is
  the only thing added (`run_answer_cases`);
* so the arrays held are those that have been answered, none of them twice, and each
  answer is counted once, as an array or as a hit (`Keeps`, `Keeps.answer`);
* **any run** keeps this, by induction on the requests (`Keeps.answerAll`).

**Statement** (`answerAll_shares`): from an interner that holds nothing, every request is
answered with the column asked for, two of them with one instance exactly where they ask
for one column, and after each part of the run the arrays held are as many as the columns
asked for, each counted once.
-/

namespace Journey.Interner

variable {i : Interner} {answered : List (Shared Column)}

/-! ## All tables together -/

theorem mem_arrays {a : Shared Column} :
    a ∈ i.arrays ↔ ∃ k, ∃ s ∈ i.table k, s.map (Column.mk k) = a := by
  simp [arrays, ColumnKind.mem_all]

theorem arrays_hits (i : Interner) (hits : Nat) : ({ i with hits } : Interner).arrays = i.arrays :=
  rfl

/-- To add an item to one of the lists that are joined is to add it to what they make up. -/
theorem flatMap_perm_of_append {α κ : Type} [DecidableEq κ] {f g : κ → List α} {k : κ} {x : α}
    (hself : g k = f k ++ [x]) (hother : ∀ l, l ≠ k → g l = f l) {kinds : List κ}
    (hnodup : kinds.Nodup) (hmem : k ∈ kinds) : (kinds.flatMap g).Perm (x :: kinds.flatMap f) := by
  induction kinds with
  | nil => cases hmem
  | cons l rest ih =>
      obtain ⟨hnot, hrest⟩ := List.nodup_cons.mp hnodup
      rw [List.flatMap_cons, List.flatMap_cons]
      by_cases hl : l = k
      · subst hl
        have hsame : rest.flatMap g = rest.flatMap f :=
          List.flatMap_congr fun m hm => hother m fun heq => hnot (heq ▸ hm)
        rw [hself, hsame, List.append_assoc]
        exact List.perm_middle
      · have hin : k ∈ rest := (List.mem_cons.mp hmem).resolve_left fun heq => hl heq.symm
        rw [hother l hl]
        exact ((ih hrest hin).append_left (f l)).trans List.perm_middle

theorem arrays_withTable_perm (i : Interner) (k : ColumnKind) (s : Shared (List k.Value)) :
    (i.withTable k (i.table k ++ [s])).arrays.Perm (s.map (Column.mk k) :: i.arrays) := by
  refine flatMap_perm_of_append ?_ (fun l hl => ?_) ColumnKind.all_nodup (ColumnKind.mem_all k)
  · rw [table_withTable_self, List.map_append]
    rfl
  · rw [table_withTable_of_ne i hl]

/-! ## One request -/

/-- An array for the column was held. -/
structure Hits (i : Interner) (c : Column) (a : Shared Column) (later : Interner) : Prop where
  value : a.value = c
  mem : a ∈ i.arrays
  later : later = { i with hits := i.hits + 1 }

/-- No array for the column was held, and a new one is added. -/
structure Misses (i : Interner) (c : Column) (a : Shared Column) (later : Interner) : Prop where
  value : a.value = c
  tag : a.tag = i.size
  new : ∀ b ∈ i.arrays, b.value ≠ c
  hits : later.hits = i.hits
  perm : later.arrays.Perm (a :: i.arrays)

theorem run_answer_cases (c : Column) (i : Interner) :
    i.Hits c ((answer c).run i).1 ((answer c).run i).2 ∨
      i.Misses c ((answer c).run i).1 ((answer c).run i).2 := by
  obtain ⟨k, values⟩ := c
  have hrun : (answer ⟨k, values⟩).run i =
      (((share k values).run i).1.map (Column.mk k), ((share k values).run i).2) := rfl
  rw [hrun]
  cases h : i.find? k values with
  | some s =>
      rw [run_share_of_find? h]
      refine .inl ⟨?_, ?_, rfl⟩
      · rw [← value_of_find? h]
        rfl
      · exact mem_arrays.mpr ⟨k, s, List.mem_of_find?_eq_some h, rfl⟩
  | none =>
      rw [run_share_of_not_held h]
      refine .inr ⟨rfl, rfl, ?_, hits_withTable .., arrays_withTable_perm ..⟩
      intro b hb hvalue
      obtain ⟨l, s, hs, rfl⟩ := mem_arrays.mp hb
      cases hvalue
      have hnot := List.find?_eq_none.mp h s hs
      simp at hnot

/-! ## All requests -/

/-- What the interner holds after these answers. -/
structure Keeps (i : Interner) (answered : List (Shared Column)) : Prop where
  mem_iff : ∀ a, a ∈ i.arrays ↔ a ∈ answered
  columns : (i.arrays.map (·.value)).Nodup
  tags : (i.arrays.map (·.tag)).Perm (List.range i.size)
  count : i.hits + i.size = answered.length

theorem keeps_nil : Keeps {} [] where
  mem_iff _ := Iff.rfl
  columns := List.nodup_nil
  tags := .nil
  count := rfl

theorem Hits.keeps {c : Column} {a : Shared Column} {later : Interner} (hhits : i.Hits c a later)
    (h : i.Keeps answered) : later.Keeps (answered ++ [a]) := by
  obtain ⟨_, hmem, rfl⟩ := hhits
  refine ⟨?_, h.columns, h.tags, ?_⟩
  · intro b
    rw [arrays_hits, h.mem_iff, List.mem_append, List.mem_singleton]
    constructor
    · exact .inl
    · rintro (hold | rfl)
      · exact hold
      · exact (h.mem_iff _).mp hmem
  · have hcount := h.count
    rw [List.length_append]
    show i.hits + 1 + i.size = answered.length + 1
    omega

theorem Misses.keeps {c : Column} {a : Shared Column} {later : Interner}
    (hmisses : i.Misses c a later) (h : i.Keeps answered) : later.Keeps (answered ++ [a]) := by
  have hsize : later.size = i.size + 1 := by
    rw [← length_arrays, ← length_arrays, hmisses.perm.length_eq, List.length_cons]
  refine ⟨?_, ?_, ?_, ?_⟩
  · intro b
    rw [hmisses.perm.mem_iff, List.mem_cons, h.mem_iff, List.mem_append, List.mem_singleton,
      or_comm]
  · -- a column that is held is not held a second time
    rw [(hmisses.perm.map _).nodup_iff, List.map_cons, List.nodup_cons]
    refine ⟨?_, h.columns⟩
    rw [List.mem_map]
    rintro ⟨b, hb, hvalue⟩
    exact hmisses.new b hb (hvalue.trans hmisses.value)
  · rw [hsize, List.range_succ]
    refine (hmisses.perm.map _).trans ?_
    rw [List.map_cons, hmisses.tag]
    exact (h.tags.cons i.size).trans (List.perm_append_singleton _ _).symm
  · have hcount := h.count
    rw [hmisses.hits, hsize, List.length_append]
    show i.hits + (i.size + 1) = answered.length + 1
    omega

theorem Keeps.answer (h : i.Keeps answered) (c : Column) :
    ((answer c).run i).1.value = c ∧
      ((Interner.answer c).run i).2.Keeps (answered ++ [((Interner.answer c).run i).1]) := by
  rcases run_answer_cases c i with hhits | hmisses
  · exact ⟨hhits.value, hhits.keeps h⟩
  · exact ⟨hmisses.value, hmisses.keeps h⟩

theorem run_answerAll_cons (c : Column) (columns : List Column) (i : Interner) :
    (answerAll (c :: columns)).run i =
      (((answer c).run i).1 :: ((answerAll columns).run ((answer c).run i).2).1,
        ((answerAll columns).run ((answer c).run i).2).2) := by
  unfold answerAll
  rw [List.mapM_cons]
  rfl

theorem Keeps.answerAll (h : i.Keeps answered) (columns : List Column) :
    ((answerAll columns).run i).1.map (·.value) = columns ∧
      ((Interner.answerAll columns).run i).2.Keeps
        (answered ++ ((Interner.answerAll columns).run i).1) := by
  induction columns generalizing i answered with
  | nil =>
      refine ⟨rfl, ?_⟩
      show i.Keeps (answered ++ [])
      rwa [List.append_nil]
  | cons c columns ih =>
      obtain ⟨hvalue, hnext⟩ := h.answer c
      obtain ⟨hvalues, hlater⟩ := ih hnext
      rw [run_answerAll_cons]
      refine ⟨?_, ?_⟩
      · rw [List.map_cons, hvalue, hvalues]
      · rwa [List.append_assoc] at hlater

/-! ## What the answers tell -/

/-- Two answers are one instance exactly where they are for one column. -/
theorem Keeps.same_iff (h : i.Keeps answered) {a b : Shared Column} (ha : a ∈ answered)
    (hb : b ∈ answered) : a.same b ↔ a.value = b.value := by
  have hin := (h.mem_iff a).mpr ha
  have hin' := (h.mem_iff b).mpr hb
  have htags : (i.arrays.map (·.tag)).Nodup := h.tags.nodup_iff.mpr List.nodup_range
  rw [Shared.same_iff]
  constructor
  · intro htag
    rw [List.inj_on_of_nodup_map htags hin hin' htag]
  · intro hvalue
    rw [List.inj_on_of_nodup_map h.columns hin hin' hvalue]

/-- An array is held for each column that was asked for, and for none else. -/
theorem Keeps.size_eq (h : i.Keeps answered) :
    i.size = (answered.map (·.value)).toFinset.card := by
  have hsame : (i.arrays.map (·.value)).toFinset = (answered.map (·.value)).toFinset := by
    ext c
    simp only [List.mem_toFinset, List.mem_map, h.mem_iff]
  rw [← hsame, List.toFinset_card_of_nodup h.columns, List.length_map, length_arrays]

theorem Keeps.isEmpty_iff (h : i.Keeps answered) : i.isEmpty ↔ answered = [] := by
  have hsize := h.size_eq
  unfold isEmpty
  rw [beq_iff_eq, hsize, Finset.card_eq_zero, List.toFinset_eq_empty_iff, List.map_eq_nil_iff]

/-- The answers to the first requests are the first answers. -/
theorem prefix_answerAll {front columns : List Column} (h : front <+: columns) (i : Interner) :
    ((answerAll front).run i).1 <+: ((answerAll columns).run i).1 := by
  induction front generalizing i columns with
  | nil => exact List.nil_prefix
  | cons c front ih =>
      obtain ⟨back, rfl⟩ := h
      rw [List.cons_append, run_answerAll_cons, run_answerAll_cons]
      exact List.cons_prefix_cons.mpr ⟨rfl, ih (List.prefix_append _ _) _⟩

/-! ## Main statement -/

/-- Whatever an interner is asked for, in whatever order: each request is answered with the
column asked for, and two with one instance exactly where they ask for one column. After
each part of the run, an array is held for each column so far, every request is counted as
an array or as a hit, and nothing is held only at the start. -/
theorem answerAll_shares (requests : List Column) :
    ((answerAll requests).run {}).1.map (·.value) = requests ∧
    (∀ (m n : Nat) (a b : Shared Column), ((answerAll requests).run {}).1[m]? = some a →
      ((answerAll requests).run {}).1[n]? = some b →
      (a.same b ↔ requests[m]? = requests[n]?)) ∧
    ∀ done, done <+: requests →
      ((answerAll done).run {}).1 <+: ((answerAll requests).run {}).1 ∧
      ((answerAll done).run {}).2.size = done.toFinset.card ∧
      ((answerAll done).run {}).2.hits + ((answerAll done).run {}).2.size = done.length ∧
      (((answerAll done).run {}).2.isEmpty ↔ done = []) := by
  obtain ⟨hvalues, hkeeps⟩ := keeps_nil.answerAll requests
  have hasked : ∀ {n : Nat} {a : Shared Column}, ((answerAll requests).run {}).1[n]? = some a →
      requests[n]? = some a.value := by
    intro n a ha
    rw [← hvalues, List.getElem?_map, ha]
    rfl
  refine ⟨hvalues, ?_, ?_⟩
  · intro m n a b ha hb
    rw [hkeeps.same_iff (List.mem_of_getElem? ha) (List.mem_of_getElem? hb), hasked ha, hasked hb,
      Option.some_inj]
  · intro done hprefix
    obtain ⟨hdone, hkeeps'⟩ := keeps_nil.answerAll done
    rw [List.nil_append] at hkeeps'
    have hlength := congrArg List.length hdone
    rw [List.length_map] at hlength
    refine ⟨prefix_answerAll hprefix {}, ?_, ?_, ?_⟩
    · rw [hkeeps'.size_eq, hdone]
    · rw [hkeeps'.count, hlength]
    · rw [hkeeps'.isEmpty_iff, ← List.length_eq_zero_iff, hlength, List.length_eq_zero_iff]

/-- Columns of different kinds are kept apart, also where both are of no stop. -/
example : ((answerAll [.flags [], .pickDrops [], .flags [], .times [0, 60]]).run {}).1.map (·.tag) =
    [0, 1, 0, 2] := rfl

end Journey.Interner
