import Mathlib.Data.List.Nodup
import Prose.Json.Decoder

namespace Prose.Json

mutual

def levels : Json → Nat
  | array items => levelsItems items + 1
  | object members => levelsMembers members + 1
  | _ => 0
termination_by structural j => j

def levelsItems : List Json → Nat
  | [] => 0
  | x :: xs => max (levels x) (levelsItems xs)
termination_by structural xs => xs

def levelsMembers : List (Option String × Json) → Nat
  | [] => 0
  | (_, v) :: ms => max (levels v) (levelsMembers ms)
termination_by structural ms => ms

end

theorem levels_tagged (name : String) (payload : Json) :
    levels (tagged name payload) = levels payload + 1 :=
  congrArg (· + 1) (Nat.max_zero _)

theorem levels_record_zip {names : List String} {values : List Json}
    (h : names.length = values.length) :
    levels (record (names.zip values)) = levelsItems values + 1 := by
  have hmembers : levelsMembers ((names.zip values).map fun m => (some m.1, m.2)) =
      levelsItems values := by
    induction values generalizing names with
    | nil => rw [List.zip_nil_right]; rfl
    | cons v values ih =>
      obtain ⟨name, names, rfl⟩ := List.exists_cons_of_length_eq_add_one h
      exact congrArg (max (levels v)) (ih (Nat.succ.inj h))
  exact congrArg (· + 1) hmembers

namespace Decoder

variable {α β : Type} {n d k k' : Nat} {x : Option α} {a : α} {b : β}

def Finds (d k : Nat) (x : Option α) (a : α) : Prop :=
  x = if k ≤ d then some a else none

theorem Finds.pure (d : Nat) (a : α) : Finds d 0 (some a) a :=
  (if_pos (Nat.zero_le d)).symm

theorem Finds.of_eq (h : Finds d k x a) (hk : k = k') : Finds d k' x a :=
  hk ▸ h

theorem Finds.bind {f : α → Option β} (hx : Finds d k x a) (hf : Finds d k' (f a) b) :
    Finds d (max k k') (x.bind f) b := by
  unfold Finds at *
  rw [hx]
  by_cases hk : k ≤ d
  · rw [if_pos hk, Option.bind_some, hf]
    simp only [Nat.max_le, hk, true_and]
  · rw [if_neg hk, if_neg fun h => hk (Nat.max_le.mp h).1]
    rfl

theorem Finds.map (hx : Finds d k x a) (f : α → β) : Finds d k (x.map f) (f a) := by
  unfold Finds at *
  rw [hx]
  split <;> rfl

/-- One level further out there is one more to enter. -/
theorem finds_succ : Finds (d + 1) (k + 1) x a ↔ Finds d k x a := by
  unfold Finds
  simp only [Nat.add_le_add_iff_right]

/-- With fewer than `n` levels to enter, the decoder finds `a` in the document if these are as many
as the document has. -/
def Decodes (n : Nat) (dec : Decoder α) (j : Json) (a : α) : Prop :=
  ∀ d < n, Finds d j.levels (dec d j) a

theorem decodes_text (n : Nat) (s : String) : Decodes n text (.text s) s :=
  fun d _ => .pure d s

theorem decodes_char (n : Nat) (c : Char) : Decodes n char (.text c.toString) c := by
  intro d _
  have hchar : char d (.text c.toString) = some c := by
    simp [char, Json.text]
  rw [hchar]
  exact .pure d c

theorem decodes_boolean (n : Nat) (b : Bool) : Decodes n boolean (.boolean b) b :=
  fun d _ => .pure d b

theorem decodes_natural (n : Nat) {k : Nat} (h : k < Nat.pow 2 64) :
    Decodes n natural (.natural k) k := by
  intro d _
  have hnatural : natural d (.natural k) = some k := by
    simp [natural, Json.natural, Number.isInteger, h]
  rw [hnatural]
  exact .pure d k

section options

variable {item : Decoder α} {j : Json}

theorem decodes_none (item : Decoder α) : Decodes n (optional item) null none :=
  fun d _ => .pure d none

theorem decodes_some (hj : j ≠ null) (h : Decodes n item j a) :
    Decodes n (optional item) j (some a) := by
  intro d hd
  have hitem : optional item d j = (item d j).map some := by
    rw [optional]
    exact hj
  rw [hitem]
  exact (h d hd).map some

/-- Where no value is written as `null`, a missing value is. -/
theorem decodes_optional {f : α → Json} (hnull : ∀ a, f a ≠ null) {o : Option α}
    (h : ∀ a ∈ o, Decodes n item (f a) a) : Decodes n (optional item) (Json.optional f o) o := by
  cases o with
  | none => exact decodes_none item
  | some a => exact decodes_some (hnull a) (h a rfl)

end options

section lists

variable {item : Decoder α} {j : Json} {js : List Json} {as : List α}

theorem decodes_nil : Decodes n (list item) (array []) [] := by
  rintro (_ | d) _
  · rfl
  · exact finds_succ.mpr (.pure d [])

theorem decodes_cons (h : Decodes n item j a) (hs : Decodes n (list item) (array js) as) :
    Decodes n (list item) (array (j :: js)) (a :: as) := by
  rintro (_ | d) hd
  · rfl
  · have hitems : Finds d (levelsItems js) (js.mapM (item d)) as := finds_succ.mp (hs (d + 1) hd)
    have hmap : list item (d + 1) (array (j :: js)) =
        (item d j).bind fun a => (js.mapM (item d)).bind fun as => some (a :: as) :=
      List.mapM_cons
    rw [hmap]
    refine finds_succ.mpr ?_
    refine (h d (Nat.lt_of_succ_lt hd)).bind (Finds.of_eq ?_ (Nat.max_zero _))
    exact hitems.bind (.pure d (a :: as))

end lists

section records

variable {names : List String} {values : List Json}

def membersNamed (names : List String) (values : List Json) : List (Option String × Json) :=
  (names.zip values).map fun m => (some m.1, m.2)

/-- No name is repeated among the members. -/
theorem length_filter_le (hnames : names.Nodup) (hlength : names.length = values.length)
    (f : String) : ((membersNamed names values).filter (·.1 == some f)).length ≤ 1 := by
  have hkeys : (names.zip values).map Prod.fst = names :=
    List.map_fst_zip (Nat.le_of_eq hlength)
  have hcount : ((membersNamed names values).filter (·.1 == some f)).length = names.count f := by
    rw [← List.countP_eq_length_filter, membersNamed, List.countP_map, List.count, ← hkeys,
      List.countP_map, hkeys]
    rfl
  rw [hcount]
  exact List.nodup_iff_count_le_one.mp hnames f

theorem map_lookup (hnames : names.Nodup) (hlength : names.length = values.length) :
    (names.map fun f => (membersNamed names values).lookup (some f)) = values.map some := by
  induction names generalizing values with
  | nil =>
    cases values with
    | nil => rfl
    | cons v values => cases hlength
  | cons name names ih =>
    obtain ⟨v, values, rfl⟩ := List.exists_cons_of_length_eq_add_one hlength.symm
    obtain ⟨hfirst, hrest⟩ := List.nodup_cons.mp hnames
    have hlater :
        (names.map fun f => (membersNamed (name :: names) (v :: values)).lookup (some f)) =
        names.map fun f => (membersNamed names values).lookup (some f) := by
      refine List.map_congr_left fun f hf => ?_
      have hne : (some f == some name) = false := by
        refine beq_eq_false_iff_ne.mpr ?_
        rintro ⟨⟩
        exact hfirst hf
      exact List.lookup_cons.trans (by rw [hne]; rfl)
    have hhead : (membersNamed (name :: names) (v :: values)).lookup (some name) = some v :=
      List.lookup_cons_self
    rw [List.map_cons, hhead, hlater, ih hrest (Nat.succ.inj hlength)]
    rfl

/-- The fields of a record are its values, if they are named as the decoder names them. -/
theorem fields_record (hnames : names.Nodup) (hlength : names.length = values.length) (d : Nat) :
    fields names false (d + 1) (record (names.zip values)) = some (d, values.map some) := by
  have hfields : fields names false (d + 1) (record (names.zip values)) =
      (membersOf names (membersNamed names values)).map (d, ·) := rfl
  have hkeys : (membersNamed names values).all (·.1.isSome) = true := by
    simp [membersNamed]
  have hunique : names.all (fun f =>
      decide (((membersNamed names values).filter (·.1 == some f)).length ≤ 1)) = true :=
    List.all_eq_true.mpr fun f _ => decide_eq_true (length_filter_le hnames hlength f)
  rw [hfields, membersOf, hkeys, hunique, map_lookup hnames hlength]
  rfl

/-- A record is decoded by what is done with its fields one level further in. -/
theorem finds_record {next : Nat × List (Option Json) → Option α} (names : List String)
    (values : List Json) (hnames : names.Nodup) (hlength : names.length = values.length)
    (hd : d ≤ n) (h : ∀ d < n, Finds d (levelsItems values) (next (d, values.map some)) a) :
    Finds d (levels (record (names.zip values)))
      ((fields names false d (record (names.zip values))).bind next) a := by
  rw [levels_record_zip hlength]
  cases d with
  | zero => rfl
  | succ d =>
    rw [fields_record hnames hlength, Option.bind_some]
    exact finds_succ.mpr (h d hd)

end records

/-- A variant is decoded by what is done with its payload one level further in. -/
theorem decodes_tagged {dec : Decoder α} {name : String} {payload : Json}
    (hzero : dec 0 (tagged name payload) = none)
    (h : ∀ d < n, Finds d (levels payload) (dec (d + 1) (tagged name payload)) a) :
    Decodes n dec (tagged name payload) a := by
  intro d hd
  rw [levels_tagged]
  cases d with
  | zero => exact hzero
  | succ d => exact finds_succ.mpr (h d (Nat.lt_of_succ_lt hd))

/-- A variant whose payload is a record is decoded by what is done with its fields two levels
further in. -/
theorem decodes_variant {dec : Decoder α} {name : String}
    {next : Nat × List (Option Json) → Option α} (names : List String) (values : List Json)
    (hnames : names.Nodup) (hlength : names.length = values.length)
    (hzero : dec 0 (tagged name (record (names.zip values))) = none)
    (hdec : ∀ d, dec (d + 1) (tagged name (record (names.zip values))) =
      (fields names false d (record (names.zip values))).bind next)
    (h : ∀ d < n, Finds d (levelsItems values) (next (d, values.map some)) a) :
    Decodes n dec (tagged name (record (names.zip values))) a := by
  refine decodes_tagged hzero fun d hd => ?_
  rw [hdec]
  exact finds_record names values hnames hlength (Nat.le_of_lt hd) h

end Decoder

end Prose.Json
