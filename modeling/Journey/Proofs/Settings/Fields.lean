import Journey.Settings.Document
import Mathlib.Data.List.Forall2
import Mathlib.Data.List.Perm.Basic

/-!
# Fields of a section

The fields of a section are found by name or by place. `Json.Holds` says what it is for a value to
hold those that are given: an object has each of them once, at any place and among
members of other names, and an array has them from the first on and ends where no later
one is given. A name counts as it is decoded, not as it is spelled.

**Statement** (`Json.fields?_of_holds`): whatever holds the fields is read as these fields.
-/

namespace Journey.Json

/-- The fields that are given, with their names. -/
def present : List String → List (Option Json) → List (String × Json)
  | name :: names, value :: values =>
    (value.map fun v => (name, v)).toList ++ present names values
  | _, _ => []

/-- The members have these names, however they are spelled. -/
def Named (members : List (Text × Json)) (named : List (String × Json)) : Prop :=
  List.Forall₂ (fun m n => m.1.decode = some n.1.toList ∧ m.2 = n.2) members named

/-- The ways to hold the values of fields, of which some may be missing: an object has those that
are given as members, in any order and with others among them, and an array has the values
of the first fields, where no later one is given. -/
inductive Holds (names : List String) (values : List (Option Json)) : Json → Prop
  | object {members : List (Text × Json)} {named others : List (String × Json)} :
      Named members named → named.Perm (present names values ++ others) →
      (∀ other ∈ others, other.1 ∉ names) → Holds names values (.object members)
  | array {given : List Json} {missing : Nat} :
      values = given.map some ++ List.replicate missing none → Holds names values (.array given)

variable {names : List String} {values : List (Option Json)} {members : List (Text × Json)}
  {named others : List (String × Json)} {j : Json}

theorem named?_of_named (h : Named members named) : named? members = some named := by
  induction h with
  | nil => rfl
  | @cons m n members named hm _ ih =>
      obtain ⟨text, v⟩ := m
      obtain ⟨name, v'⟩ := n
      obtain ⟨hname, hvalue⟩ : text.decode = some name.toList ∧ v = v' := hm
      unfold named? at ih ⊢
      rw [List.mapM_cons]
      simp only [hname, ih, hvalue, Option.map_some, String.ofList_toList]
      rfl

theorem not_mem_present {name : String} (h : name ∉ names) :
    (present names values).filter (·.1 == name) = [] := by
  induction names generalizing values with
  | nil => rfl
  | cons n names ih =>
      have hne : n ≠ name := fun heq => h (heq ▸ List.mem_cons_self)
      have hrest : name ∉ names := fun hmem => h (List.mem_cons_of_mem _ hmem)
      cases values with
      | nil => rfl
      | cons v values =>
          rw [present, List.filter_append, ih hrest]
          cases v with
          | none => rfl
          | some v => simp [hne]

/-- A field that is given is there once, and one that is not given is not. -/
theorem filter_present (hnames : names.Nodup) {name : String} {value : Option Json}
    (h : (name, value) ∈ names.zip values) :
    (present names values).filter (·.1 == name) = (value.map fun v => (name, v)).toList := by
  induction names generalizing values with
  | nil => exact absurd h List.not_mem_nil
  | cons n names ih =>
      obtain ⟨hn, hrest⟩ := List.nodup_cons.mp hnames
      cases values with
      | nil => exact absurd h List.not_mem_nil
      | cons v values =>
          rw [present, List.filter_append]
          rcases List.mem_cons.mp h with heq | hmem
          · -- the field itself, and no later one has its name
            cases heq
            rw [not_mem_present hn, List.append_nil]
            cases value with
            | none => rfl
            | some v => simp
          · have hname : name ∈ names := (List.of_mem_zip hmem).1
            have hne : n ≠ name := fun heq => hn (heq ▸ hname)
            rw [ih hrest hmem]
            cases v with
            | none => rfl
            | some v => simp [hne]

/-- A member that is searched by its name is the first of that name. -/
theorem lookup_eq_head? (name : String) (named : List (String × Json)) :
    named.lookup name = (named.filter (·.1 == name)).head?.map (·.2) := by
  induction named with
  | nil => rfl
  | cons n named ih =>
      obtain ⟨key, v⟩ := n
      rw [List.lookup_cons, List.filter_cons, Bool.beq_comm]
      cases hkey : key == name with
      | true => simp
      | false => simpa [hkey] using ih

theorem filter_of_perm (hnames : names.Nodup) (hperm : named.Perm (present names values ++ others))
    (hothers : ∀ other ∈ others, other.1 ∉ names) {name : String} {value : Option Json}
    (h : (name, value) ∈ names.zip values) :
    named.filter (·.1 == name) = (value.map fun v => (name, v)).toList := by
  have hname : name ∈ names := (List.of_mem_zip h).1
  have hnone : others.filter (·.1 == name) = [] := by
    rw [List.filter_eq_nil_iff]
    intro other hother heq
    exact hothers other hother (eq_of_beq heq ▸ hname)
  -- of one member at most there is only one order
  have hfilter := hperm.filter (·.1 == name)
  rw [List.filter_append, filter_present hnames h, hnone, List.append_nil] at hfilter
  cases value with
  | none => exact List.perm_nil.mp hfilter
  | some v => exact List.perm_singleton.mp hfilter

theorem fields?_of_holds (hnames : names.Nodup) (hlength : values.length = names.length)
    (h : Holds names values j) : j.fields? names = some values := by
  cases h with
  | @array given missing hvalues =>
      rw [hvalues, List.length_append, List.length_map, List.length_replicate] at hlength
      have hmissing : names.length - given.length = missing := by omega
      rw [fields?, if_pos (by omega), hmissing, hvalues]
  | @object members named others hnamed hperm hothers =>
      have hfilter : ∀ p ∈ names.zip values,
          named.filter (·.1 == p.1) = (p.2.map fun v => (p.1, v)).toList :=
        fun p hp => filter_of_perm hnames hperm hothers hp
      -- both sides of the table of names and values, which `hfilter` is about
      have hfirst : (names.zip values).map Prod.fst = names := List.map_fst_zip (by omega)
      have hsecond : (names.zip values).map Prod.snd = values := List.map_snd_zip (by omega)
      have honce : ∀ name ∈ names, (named.filter (·.1 == name)).length ≤ 1 := by
        rw [← hfirst, List.forall_mem_map]
        intro p hp
        rw [hfilter p hp]
        cases p.2 <;> simp
      have hlookup : (names.map fun name => named.lookup name) = values := by
        calc names.map (fun name => named.lookup name)
            = ((names.zip values).map Prod.fst).map fun name => named.lookup name := by rw [hfirst]
          _ = (names.zip values).map fun p => named.lookup p.1 := List.map_map
          _ = (names.zip values).map Prod.snd := by
              refine List.map_congr_left fun p hp => ?_
              rw [lookup_eq_head?, hfilter p hp]
              cases p.2 <;> rfl
          _ = values := hsecond
      simp only [fields?, named?_of_named hnamed]
      simpa [hlookup] using honce

end Journey.Json
