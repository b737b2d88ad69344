/-
  StackCalc.Table

  Finite maps from names, in the order in which the names were first entered.
  A later entry under a known name takes the place of the earlier one.
-/

namespace StackCalc

/-- Values by name, in order of first entry. -/
structure Table (α : Type) where
  /-- The entries, first entered first. -/
  entries : List (String × α) := []

namespace Table

variable {α : Type}

/-- The table without entries. -/
def empty : Table α := {}

instance : EmptyCollection (Table α) := ⟨empty⟩

instance : Inhabited (Table α) := ⟨empty⟩

/-- The value under a name. -/
def find? (t : Table α) (name : String) : Option α :=
  t.entries.lookup name

/-- There is a value under this name. -/
def contains (t : Table α) (name : String) : Bool :=
  (t.find? name).isSome

/-- Writes a value into an entry list: in place where the name is known, at the
    end where it is new. -/
def write (name : String) (value : α) : List (String × α) → List (String × α)
  | [] => [(name, value)]
  | (key, old) :: rest =>
    if name == key then (key, value) :: rest else (key, old) :: write name value rest

/-- Enters a value under a name. -/
def insert (t : Table α) (name : String) (value : α) : Table α :=
  ⟨write name value t.entries⟩

/-- Enters pairs one after the other. -/
def insertMany (t : Table α) (pairs : List (String × α)) : Table α :=
  pairs.foldl (fun t p => t.insert p.1 p.2) t

/-- The table of a list of pairs, in which a later pair wins. -/
def ofList (pairs : List (String × α)) : Table α :=
  empty.insertMany pairs

/-- The names, in order of first entry. -/
def names (t : Table α) : List String :=
  t.entries.map Prod.fst

/-! ## Look-ups -/

variable {t u : Table α} {name : String}

@[simp] theorem find?_empty (name : String) : (empty : Table α).find? name = none := rfl

theorem lookup_write (name other : String) (value : α) (entries : List (String × α)) :
    (write name value entries).lookup other
      = if other == name then some value else entries.lookup other := by
  induction entries with
  | nil => cases h : other == name <;> simp [write, List.lookup_cons, h]
  | cons entry rest ih =>
    obtain ⟨key, old⟩ := entry
    by_cases hk : name = key
    · subst hk
      cases h : other == name <;> simp [write, List.lookup_cons, h]
    · cases ho : other == key with
      | false => simp [write, List.lookup_cons, hk, ho, ih]
      | true =>
        have : other ≠ name := fun h => hk (h.symm.trans (eq_of_beq ho))
        simp [write, List.lookup_cons, hk, ho, this]

/-- A look-up sees the last value written under its name, and no other write. -/
theorem find?_insert (t : Table α) (name other : String) (value : α) :
    (t.insert name value).find? other = if other == name then some value else t.find? other :=
  lookup_write name other value t.entries

theorem find?_insert_congr (h : ∀ other, t.find? other = u.find? other) (key : String) (value : α)
    (name : String) : (t.insert key value).find? name = (u.insert key value).find? name := by
  rw [find?_insert, find?_insert, h]

/-! ## Names -/

/-- The names are those under which there is a value. -/
theorem mem_names_iff : name ∈ t.names ↔ ∃ value, t.find? name = some value := by
  rw [← Option.isSome_iff_exists, find?, List.lookup_isSome_iff, names, List.mem_map]
  simp only [beq_iff_eq, eq_comm (a := name)]

theorem find?_ne_none_iff : t.find? name ≠ none ↔ name ∈ t.names := by
  rw [mem_names_iff, Option.ne_none_iff_exists']

theorem forall_mem_names {p : String → Prop} :
    (∀ name ∈ t.names, p name) ↔ ∀ name value, t.find? name = some value → p name := by
  simp only [mem_names_iff, forall_exists_index]

theorem mem_names_insert {key : String} {value : α} :
    key ∈ (t.insert name value).names ↔ key = name ∨ key ∈ t.names := by
  rw [mem_names_iff, mem_names_iff, find?_insert]
  by_cases hkey : key = name <;> simp [hkey]

/-! ## Many entries -/

variable {pairs : List (String × α)}

theorem mem_names_insertMany :
    name ∈ (t.insertMany pairs).names ↔ name ∈ pairs.map Prod.fst ∨ name ∈ t.names := by
  induction pairs generalizing t with
  | nil => simp [insertMany]
  | cons pair rest ih =>
    have hbehind := @ih (t.insert pair.1 pair.2)
    rw [mem_names_insert] at hbehind
    refine hbehind.trans ?_
    rw [List.map_cons, List.mem_cons, or_left_comm, or_assoc]

theorem lookup_eq_some_iff (h : (pairs.map Prod.fst).Nodup) {name : String} {value : α} :
    pairs.lookup name = some value ↔ (name, value) ∈ pairs := by
  induction pairs with
  | nil => simp
  | cons pair rest ih =>
    obtain ⟨key, first⟩ := pair
    obtain ⟨hkey, hrest⟩ := List.nodup_cons.mp h
    by_cases hname : name = key
    · subst hname
      -- the first pair is the only one of this name
      have hbehind : (name, value) ∉ rest := fun hmem =>
        absurd (List.mem_map_of_mem (f := Prod.fst) hmem) hkey
      simp [hbehind, eq_comm]
    · have hbeq : (name == key) = false := beq_false_of_ne hname
      simp [List.lookup_cons, hbeq, hname, ih hrest]

/-- Of different names each is found with the value that it was entered with. -/
theorem find?_insertMany (h : (pairs.map Prod.fst).Nodup) (t : Table α) (name : String) :
    (t.insertMany pairs).find? name = (pairs.lookup name).or (t.find? name) := by
  induction pairs generalizing t with
  | nil => rfl
  | cons pair rest ih =>
    obtain ⟨key, value⟩ := pair
    obtain ⟨hkey, hrest⟩ := List.nodup_cons.mp h
    have hbehind := ih hrest (t.insert key value)
    rw [find?_insert] at hbehind
    refine hbehind.trans ?_
    by_cases hname : name = key
    · subst hname
      -- no later pair has this name, so none takes the place of this one
      have hnone : rest.lookup name = none :=
        Classical.not_not.mp (mt (find?_ne_none_iff (t := ⟨rest⟩)).mp hkey)
      simp [hnone]
    · have hbeq : (name == key) = false := beq_false_of_ne hname
      simp [List.lookup_cons, hbeq]

/-! ## One name less -/

/-- A table without what is entered under one name. -/
def without (t : Table α) (name : String) : Table α :=
  ⟨t.entries.filter (·.1 != name)⟩

theorem find?_without (t : Table α) (name other : String) :
    (t.without name).find? other = if other == name then none else t.find? other := by
  obtain ⟨entries⟩ := t
  simp only [without, find?]
  induction entries with
  | nil => simp
  | cons entry rest ih =>
    obtain ⟨key, value⟩ := entry
    by_cases hkey : key = name
    · subst hkey
      rw [List.filter_cons_of_neg (by simp), ih, List.lookup_cons]
      cases other == key <;> rfl
    · rw [List.filter_cons_of_pos (by simpa using hkey), List.lookup_cons, List.lookup_cons, ih]
      by_cases hother : other = key
      · simp [hother, hkey]
      · simp [beq_eq_false_iff_ne.mpr hother]

theorem find?_of_without {other : String} (h : t.without name = u.without name)
    (hother : other ≠ name) : t.find? other = u.find? other := by
  have hbeq : ¬(other == name) = true := fun heq => hother (beq_iff_eq.mp heq)
  have hfind : (t.without name).find? other = (u.without name).find? other := by rw [h]
  rwa [find?_without, find?_without, if_neg hbeq, if_neg hbeq] at hfind

theorem without_of_absent (h : t.contains name = false) : t.without name = t := by
  obtain ⟨entries⟩ := t
  have hnone : entries.lookup name = none := by simpa [contains, find?] using h
  have hall : entries.filter (·.1 != name) = entries := by
    refine List.filter_eq_self.mpr fun entry hentry => ?_
    have hkey := List.lookup_eq_none_iff.mp hnone entry hentry
    exact bne_iff_ne.mpr (bne_iff_ne.mp hkey).symm
  rw [without, hall]

theorem without_without (t : Table α) (name : String) :
    (t.without name).without name = t.without name :=
  without_of_absent (by simp [contains, find?_without])

theorem without_insert (t : Table α) (name : String) (value : α) :
    (t.insert name value).without name = t.without name := by
  obtain ⟨entries⟩ := t
  simp only [without, insert, Table.mk.injEq]
  induction entries with
  | nil => simp [write]
  | cons entry rest ih =>
    obtain ⟨key, old⟩ := entry
    rw [write]
    split
    · next hkey =>
      obtain rfl := beq_iff_eq.mp hkey
      rw [List.filter_cons_of_neg (by simp), List.filter_cons_of_neg (by simp)]
    · rw [List.filter_cons, List.filter_cons, ih]

theorem entries_insert_of_absent (h : t.contains name = false) (value : α) :
    (t.insert name value).entries = t.entries ++ [(name, value)] := by
  obtain ⟨entries⟩ := t
  have hnone : entries.lookup name = none := by simpa [contains, find?] using h
  clear h
  simp only [insert]
  induction entries with
  | nil => rfl
  | cons entry rest ih =>
    obtain ⟨key, old⟩ := entry
    rw [List.lookup_cons] at hnone
    cases hkey : name == key with
    | true => simp [hkey] at hnone
    | false =>
      rw [hkey] at hnone
      rw [write, if_neg (by simp [hkey]), ih hnone, List.cons_append]

/-- What is looked for among the names, and is not this name, is found all the same. -/
theorem find?_names_without {p : String → Bool} (h : p name = false) (t : Table α) :
    (t.without name).names.find? p = t.names.find? p := by
  obtain ⟨entries⟩ := t
  simp only [without, names]
  induction entries with
  | nil => rfl
  | cons entry rest ih =>
    obtain ⟨key, value⟩ := entry
    by_cases hkey : key = name
    · subst hkey
      rw [List.filter_cons_of_neg (by simp), ih, List.map_cons,
        List.find?_cons_of_neg (by simp [h])]
    · rw [List.filter_cons_of_pos (by simpa using hkey), List.map_cons, List.map_cons,
        List.find?_cons, List.find?_cons, ih]

theorem find?_names_of_without {p : String → Bool} (hname : p name = false)
    (h : t.without name = u.without name) : t.names.find? p = u.names.find? p := by
  rw [← find?_names_without hname t, h, find?_names_without hname u]

/-! ## The order of the entries -/

/-- The same entries, which may be listed in another order. -/
structure Reordered (t u : Table α) : Prop where
  entries : t.entries.Perm u.entries
  find? : ∀ name, t.find? name = u.find? name

theorem Reordered.refl (t : Table α) : t.Reordered t := ⟨.refl _, fun _ => rfl⟩

theorem Reordered.contains_eq (h : t.Reordered u) (name : String) :
    t.contains name = u.contains name := by
  rw [contains, contains, h.find?]

theorem Reordered.insert (h : t.Reordered u) (habsent : t.contains name = false) (value : α) :
    (t.insert name value).Reordered (u.insert name value) where
  entries := by
    rw [entries_insert_of_absent habsent,
      entries_insert_of_absent (h.contains_eq name ▸ habsent)]
    exact h.entries.append_right _
  find? other := by rw [find?_insert, find?_insert, h.find?]

theorem Reordered.without (h : t.Reordered u) (name : String) :
    (t.without name).Reordered (u.without name) where
  entries := h.entries.filter _
  find? other := by rw [find?_without, find?_without, h.find?]

/-- An order of a table with one entry more is, without this entry, an order of the table. -/
theorem Reordered.of_insert {value : α} (h : (t.insert name value).Reordered u)
    (habsent : t.contains name = false) : t.Reordered (u.without name) := by
  have hwithout := h.without name
  rwa [without_insert, without_of_absent habsent] at hwithout

end Table

/-- Names in the order of their characters' code points. -/
def sortNames (names : List String) : List String :=
  names.mergeSort (fun a b => decide (a ≤ b))

end StackCalc
