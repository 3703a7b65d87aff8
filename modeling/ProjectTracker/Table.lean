/-!
Finite maps with their entries in the order of the keys. Reading and writing decide by equality of
keys alone, so the laws of reading after writing hold for every table; the order only fixes where a
new entry stands and hence in which order a table is listed.
-/

namespace ProjectTracker

structure Table (κ α : Type) where
  entries : List (κ × α)
  deriving DecidableEq

namespace Table

variable {κ α : Type}

instance : EmptyCollection (Table κ α) := ⟨⟨[]⟩⟩

instance : Inhabited (Table κ α) := ⟨∅⟩

def keys (t : Table κ α) : List κ :=
  t.entries.map (·.1)

def values (t : Table κ α) : List α :=
  t.entries.map (·.2)

def size (t : Table κ α) : Nat :=
  t.entries.length

def isEmpty (t : Table κ α) : Bool :=
  t.entries.isEmpty

/-- Changes every value. -/
def map {β : Type} (t : Table κ α) (f : α → β) : Table κ β :=
  ⟨t.entries.map fun entry => (entry.1, f entry.2)⟩

section

variable [DecidableEq κ]

/-- The value of the first entry with the given key. -/
def lookup (k : κ) : List (κ × α) → Option α
  | [] => none
  | (k', a) :: rest => if k' = k then some a else lookup k rest

def get? (t : Table κ α) (k : κ) : Option α :=
  lookup k t.entries

def contains (t : Table κ α) (k : κ) : Bool :=
  (t.get? k).isSome

/-- Removes a key and its value. -/
def erase (t : Table κ α) (k : κ) : Table κ α :=
  ⟨t.entries.filter fun entry => ¬ entry.1 = k⟩

/-- Changes the value of a key, if there is one. -/
def modify (t : Table κ α) (k : κ) (f : α → α) : Table κ α :=
  ⟨t.entries.map fun entry => if entry.1 = k then (entry.1, f entry.2) else entry⟩

variable [LT κ] [DecidableLT κ]

/-- Puts an entry in its place among others, or in the place of one with the same key. -/
def insertEntry (k : κ) (a : α) : List (κ × α) → List (κ × α)
  | [] => [(k, a)]
  | (k', a') :: rest =>
    if k' = k then (k, a) :: rest
    else if k < k' then (k, a) :: (k', a') :: rest
    else (k', a') :: insertEntry k a rest

/-- Gives a key a value, in place of any that it had. -/
def insert (t : Table κ α) (k : κ) (a : α) : Table κ α :=
  ⟨insertEntry k a t.entries⟩

/-- The table of the given entries, where a later entry wins over an earlier one of the same key. -/
def ofList (entries : List (κ × α)) : Table κ α :=
  entries.foldl (fun t entry => t.insert entry.1 entry.2) ∅

end

@[simp] theorem keys_map {β : Type} (t : Table κ α) (f : α → β) : (t.map f).keys = t.keys := by
  unfold keys map
  rw [List.map_map]
  rfl

section

variable [DecidableEq κ]

@[simp] theorem get?_empty (k : κ) : (∅ : Table κ α).get? k = none := rfl

@[simp] theorem get?_erase (t : Table κ α) (k k' : κ) :
    (t.erase k).get? k' = if k = k' then none else t.get? k' := by
  cases t with
  | mk entries =>
    show lookup k' (entries.filter _) = if k = k' then none else lookup k' entries
    induction entries with
    | nil => simp [lookup]
    | cons entry rest ih => grind [lookup]

@[simp] theorem get?_modify (t : Table κ α) (k k' : κ) (f : α → α) :
    (t.modify k f).get? k' = if k = k' then (t.get? k').map f else t.get? k' := by
  cases t with
  | mk entries =>
    show lookup k' (entries.map _) = if k = k' then (lookup k' entries).map f else lookup k' entries
    induction entries with
    | nil => simp [lookup]
    | cons entry rest ih => grind [lookup]

@[simp] theorem get?_map {β : Type} (t : Table κ α) (k : κ) (f : α → β) :
    (t.map f).get? k = (t.get? k).map f := by
  cases t with
  | mk entries =>
    show lookup k (entries.map _) = (lookup k entries).map f
    induction entries with
    | nil => rfl
    | cons entry rest ih => grind [lookup]

theorem mem_entries_of_get? {t : Table κ α} {k : κ} {a : α} (h : t.get? k = some a) :
    (k, a) ∈ t.entries := by
  cases t with
  | mk entries =>
    replace h : lookup k entries = some a := h
    induction entries with
    | nil => simp [lookup] at h
    | cons entry rest ih => grind [lookup]

theorem mem_keys_iff {t : Table κ α} {k : κ} : k ∈ t.keys ↔ (t.get? k).isSome := by
  cases t with
  | mk entries =>
    show k ∈ entries.map (·.1) ↔ (lookup k entries).isSome
    induction entries with
    | nil => simp [lookup]
    | cons entry rest ih => grind [lookup]

@[simp] theorem keys_modify (t : Table κ α) (k : κ) (f : α → α) : (t.modify k f).keys = t.keys := by
  unfold keys modify
  rw [List.map_map]
  apply List.map_congr_left
  intro entry _
  simp only [Function.comp_apply]
  split <;> rfl

theorem keys_erase (t : Table κ α) (k : κ) : (t.erase k).keys = t.keys.filter (· ≠ k) := by
  unfold keys erase
  rw [List.filter_map]
  rfl

/-- Where no key stands twice all values can be read. -/
theorem mem_values_iff {t : Table κ α} (h : t.keys.Nodup) {a : α} :
    a ∈ t.values ↔ ∃ k, t.get? k = some a := by
  constructor
  · intro ha
    obtain ⟨⟨k, a⟩, hentry, rfl⟩ := List.mem_map.mp ha
    refine ⟨k, ?_⟩
    cases t with
    | mk entries =>
      replace h : (entries.map (·.1)).Nodup := h
      show lookup k entries = some a
      clear ha
      induction entries with
      | nil => simp at hentry
      | cons entry rest ih => grind [lookup]
  · rintro ⟨k, hk⟩
    exact List.mem_map.mpr ⟨(k, a), mem_entries_of_get? hk, rfl⟩

variable [LT κ] [DecidableLT κ]

theorem keys_insert_perm {t : Table κ α} {k : κ} (h : k ∉ t.keys) (a : α) :
    (t.insert k a).keys.Perm (k :: t.keys) := by
  cases t with
  | mk entries =>
    replace h : k ∉ entries.map (·.1) := h
    show ((insertEntry k a entries).map (·.1)).Perm (k :: entries.map (·.1))
    induction entries with
    | nil => simp [insertEntry]
    | cons entry rest ih =>
      rw [List.map_cons, List.mem_cons, not_or] at h
      unfold insertEntry
      split
      · exact absurd ‹_› (Ne.symm h.1)
      · split
        · rfl
        · exact ((ih h.2).cons entry.1).trans (.swap ..)

@[simp] theorem get?_insert (t : Table κ α) (k k' : κ) (a : α) :
    (t.insert k a).get? k' = if k = k' then some a else t.get? k' := by
  cases t with
  | mk entries =>
    show lookup k' (insertEntry k a entries) = if k = k' then some a else lookup k' entries
    induction entries with
    | nil => simp [insertEntry, lookup]
    | cons entry rest ih => grind [lookup, insertEntry]

end

end Table

end ProjectTracker
