import Journey.Timetable.TripTimes

/-!
# Columns that are held

An interner answers a request for an array with the one that the table of its kind holds
(`Interner.find?`), and it goes on to do so: arrays are only added, behind those that are
there (`Interner.Extends`).

* A request for an array that is **held** is answered with it, and adds nothing
  (`Interner.run_share_of_held`).
* After **any** request an array with these values is held, and is the one that was
  answered (`Interner.run_share_bind`).
-/

namespace Journey

namespace Interner

variable {i later : Interner}

/-- Every array that was held is held later, in the same place. -/
def Extends (i later : Interner) : Prop := ∀ k, i.table k <+: later.table k

theorem Extends.refl (i : Interner) : i.Extends i := fun _ => List.prefix_refl _

theorem Extends.trans {latest : Interner} (h : i.Extends later) (h' : later.Extends latest) :
    i.Extends latest :=
  fun k => List.IsPrefix.trans (h k) (h' k)

end Interner

/-- The array is the one that the table of a kind holds for its values. -/
def Shared.HeldIn (k : ColumnKind) (s : Shared (List k.Value)) (i : Interner) : Prop :=
  i.find? k s.value = some s

theorem Shared.HeldIn.mono {k : ColumnKind} {s : Shared (List k.Value)} {i later : Interner}
    (h : s.HeldIn k i) (hle : i.Extends later) : s.HeldIn k later := by
  obtain ⟨added, hadded⟩ := hle k
  unfold Shared.HeldIn Interner.find? at h ⊢
  rw [← hadded, List.find?_append, h]
  rfl

namespace Interner

variable {β : Type} {k : ColumnKind} {i : Interner}

theorem run_share_of_find? {values : List k.Value} {s : Shared (List k.Value)}
    (h : i.find? k values = some s) :
    (share k values).run i = (s, { i with hits := i.hits + 1 }) := by
  unfold share
  simp only [StateT.run, h]

theorem run_share_of_not_held {values : List k.Value} (h : i.find? k values = none) :
    (share k values).run i =
      ({ tag := i.size, value := values },
        i.withTable k (i.table k ++ [{ tag := i.size, value := values }])) := by
  unfold share
  simp only [StateT.run, h]

theorem value_of_find? {values : List k.Value} {s : Shared (List k.Value)}
    (h : i.find? k values = some s) : s.value = values := by
  have hvalue := List.find?_some h
  simpa using hvalue

theorem value_share (k : ColumnKind) (values : List k.Value) (i : Interner) :
    ((share k values).run i).1.value = values := by
  cases h : i.find? k values with
  | some s =>
      rw [run_share_of_find? h]
      exact value_of_find? h
  | none => rw [run_share_of_not_held h]

theorem heldIn_share (k : ColumnKind) (values : List k.Value) (i : Interner) :
    ((share k values).run i).1.HeldIn k ((share k values).run i).2 := by
  cases h : i.find? k values with
  | some s =>
      rw [run_share_of_find? h]
      show Interner.find? _ k s.value = some s
      rw [value_of_find? h]
      unfold find? at h ⊢
      rw [table_hits, h]
  | none =>
      rw [run_share_of_not_held h]
      unfold Shared.HeldIn
      unfold find? at h ⊢
      rw [table_withTable_self, List.find?_append, h]
      simp

theorem extends_share (k : ColumnKind) (values : List k.Value) (i : Interner) :
    i.Extends ((share k values).run i).2 := by
  intro l
  cases h : i.find? k values with
  | some s =>
      rw [run_share_of_find? h]
      exact ⟨[], (List.append_nil _).trans (table_hits i (i.hits + 1) l).symm⟩
  | none =>
      rw [run_share_of_not_held h]
      by_cases hl : l = k
      · subst hl
        rw [table_withTable_self]
        exact List.prefix_append _ _
      · exact ⟨[], (List.append_nil _).trans (table_withTable_of_ne i hl _).symm⟩

/-- What is shared has the values asked for, and is held from then on. -/
theorem run_share_bind {good : β × Interner → Prop} {values : List k.Value}
    {next : Shared (List k.Value) → StateM Interner β}
    (h : ∀ s later, s.value = values → s.HeldIn k later → i.Extends later →
      good ((next s).run later)) : good ((share k values >>= next).run i) :=
  h _ _ (value_share k values i) (heldIn_share k values i) (extends_share k values i)

/-- To ask for what is held gives the instance that is held, and adds nothing. -/
theorem run_share_of_held {s : Shared (List k.Value)} (h : s.HeldIn k i)
    (next : Shared (List k.Value) → StateM Interner β) (hits : Nat) :
    (share k s.value >>= next).run { i with hits } = (next s).run { i with hits := hits + 1 } := by
  have hfind : Interner.find? { i with hits } k s.value = some s := by
    unfold find?
    rw [table_hits]
    exact h
  show (next ((share k s.value).run { i with hits }).1).run
    ((share k s.value).run { i with hits }).2 = _
  rw [run_share_of_find? hfind]

end Interner

end Journey
