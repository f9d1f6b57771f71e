/-!
# Tables kept in key order

A finite map that answers its entries in ascending key order. The handlers of a script, the
variables of an entity, the arguments of an event and the entries of a script library are all
tables, and every listing that shows them relies on the order.

The order is part of the type, so `entries` can be printed or encoded as it stands. Main facts:
`get?_insert_self`, `get?_insert_of_ne`, `get?_erase_self`, `get?_erase_of_ne` and `get?_filter`
say what each operation does to a look-up, and `mem_entries_iff` that a table lists exactly what
its look-ups answer.
-/

namespace EntityScript

/-- A finite map whose entries ascend strictly by key. -/
structure Table (κ : Type) [Ord κ] (α : Type) where
  /-- The entries, in ascending key order. -/
  entries : List (κ × α)
  /-- No key comes twice, and none comes before a smaller one. -/
  ascending : entries.Pairwise fun a b => compare a.1 b.1 = .lt

namespace Table

variable {κ α β : Type} [Ord κ]

/-- Tables are equal just if their entries are. -/
instance [DecidableEq κ] [DecidableEq α] : DecidableEq (Table κ α) := fun a b =>
  decidable_of_iff (a.entries = b.entries) <| by
    cases a; cases b; simp

/-- The table without entries. -/
def empty : Table κ α := ⟨[], .nil⟩

instance : EmptyCollection (Table κ α) := ⟨empty⟩
instance : Inhabited (Table κ α) := ⟨empty⟩

/-- How many entries a table has. -/
def size (t : Table κ α) : Nat := t.entries.length

/-- Whether a table has no entries. -/
def isEmpty (t : Table κ α) : Bool := t.entries.isEmpty

/-- The keys, ascending. -/
def keys (t : Table κ α) : List κ := t.entries.map (·.1)

/-- The values, in the order of their keys. -/
def values (t : Table κ α) : List α := t.entries.map (·.2)

/-- Looks a key up in a list of entries. -/
def find (k : κ) : List (κ × α) → Option α
  | [] => none
  | (k', v) :: rest => if compare k k' = .eq then some v else find k rest

/-- The value under `k`, if there is one. -/
def get? (t : Table κ α) (k : κ) : Option α := find k t.entries

/-- Whether there is a value under `k`. -/
def contains (t : Table κ α) (k : κ) : Bool := (t.get? k).isSome

/-- Puts an entry where its key belongs, in place of an entry with the same key. -/
def place (k : κ) (v : α) : List (κ × α) → List (κ × α)
  | [] => [(k, v)]
  | (k', v') :: rest =>
    match compare k k' with
    | .lt => (k, v) :: (k', v') :: rest
    | .eq => (k, v) :: rest
    | .gt => (k', v') :: place k v rest

/-- A placed entry is the only addition. -/
theorem mem_place {k : κ} {v : α} {l : List (κ × α)} {e : κ × α} (h : e ∈ place k v l) :
    e = (k, v) ∨ e ∈ l := by
  induction l with
  | nil => simpa [place] using h
  | cons hd tl ih =>
    unfold place at h
    split at h
    · simpa using h
    · rcases List.mem_cons.1 h with h | h
      · exact .inl h
      · exact .inr (List.mem_cons_of_mem _ h)
    · rcases List.mem_cons.1 h with h | h
      · exact .inr (h ▸ List.mem_cons_self)
      · exact (ih h).imp_right (List.mem_cons_of_mem _)

/-- Placing an entry keeps a list ascending. -/
theorem place_ascending [Std.TransOrd κ] [Std.LawfulEqOrd κ] (k : κ) (v : α)
    {l : List (κ × α)} (h : l.Pairwise fun a b => compare a.1 b.1 = .lt) :
    (place k v l).Pairwise fun a b => compare a.1 b.1 = .lt := by
  induction l with
  | nil => simp [place]
  | cons hd tl ih =>
    obtain ⟨hhd, htl⟩ := List.pairwise_cons.1 h
    unfold place
    split
    · rename_i hlt
      refine List.pairwise_cons.2 ⟨fun e he => ?_, h⟩
      rcases List.mem_cons.1 he with rfl | he
      · exact hlt
      · exact Std.TransCmp.lt_trans hlt (hhd e he)
    · rename_i heq
      refine List.pairwise_cons.2 ⟨fun e he => ?_, htl⟩
      cases Std.LawfulEqCmp.eq_of_compare heq
      exact hhd e he
    · rename_i hgt
      refine List.pairwise_cons.2 ⟨fun e he => ?_, ih htl⟩
      rcases mem_place he with rfl | he
      · exact Std.OrientedCmp.lt_of_gt hgt
      · exact hhd e he

section Operations

variable [Std.TransOrd κ] [Std.LawfulEqOrd κ]

/-- Sets the value under `k`, replacing an earlier one. -/
def insert (t : Table κ α) (k : κ) (v : α) : Table κ α :=
  ⟨place k v t.entries, place_ascending k v t.ascending⟩

/-- Sets every given entry in turn, so a later one replaces an earlier one of the same key. -/
def insertAll (t : Table κ α) (entries : List (κ × α)) : Table κ α :=
  entries.foldl (fun t e => t.insert e.1 e.2) t

/-- The table of the given entries; of two with the same key the later one counts. -/
def ofList (entries : List (κ × α)) : Table κ α := (empty : Table κ α).insertAll entries

end Operations

/-- Keeps the entries whose key passes the test. -/
def filter (t : Table κ α) (p : κ → Bool) : Table κ α :=
  ⟨t.entries.filter fun e => p e.1, t.ascending.filter _⟩

/-- Removes the entry under `k`, if there is one. -/
def erase (t : Table κ α) (k : κ) : Table κ α := t.filter fun k' => compare k k' != .eq

/-- Changes every value by a function of it. -/
def map (f : α → β) (t : Table κ α) : Table κ β :=
  ⟨t.entries.map fun e => (e.1, f e.2), List.pairwise_map.2 t.ascending⟩

/-- The empty table has nothing under any key. -/
@[simp] theorem get?_empty (k : κ) : (empty : Table κ α).get? k = none := rfl

/-- A value that was placed is found under its key. -/
theorem find_place_self [Std.TransOrd κ] [Std.LawfulEqOrd κ] (k : κ) (v : α)
    (l : List (κ × α)) : find k (place k v l) = some v := by
  induction l with
  | nil => simp [place, find]
  | cons hd tl ih =>
    unfold place
    split
    · simp [find]
    · simp [find]
    · rename_i h
      simp [find, h, ih]

/-- Placing a value leaves other keys alone. -/
theorem find_place_of_ne [Std.TransOrd κ] [Std.LawfulEqOrd κ] {k k' : κ} (h : k' ≠ k) (v : α)
    (l : List (κ × α)) : find k' (place k v l) = find k' l := by
  induction l with
  | nil => simp [place, find, h]
  | cons hd tl ih =>
    unfold place
    split
    · simp [find, h]
    · rename_i heq
      cases Std.LawfulEqCmp.eq_of_compare heq
      simp [find, h]
    · simp [find, ih]

/-- A value that was inserted is found under its key. -/
@[simp] theorem get?_insert_self [Std.TransOrd κ] [Std.LawfulEqOrd κ] (t : Table κ α) (k : κ)
    (v : α) : (t.insert k v).get? k = some v :=
  find_place_self k v t.entries

/-- Inserting a value leaves other keys alone. -/
theorem get?_insert_of_ne [Std.TransOrd κ] [Std.LawfulEqOrd κ] (t : Table κ α) {k k' : κ}
    (h : k' ≠ k) (v : α) : (t.insert k v).get? k' = t.get? k' :=
  find_place_of_ne h v t.entries

/-- Of entries that are selected by their keys, a key has what it had if it is selected. -/
theorem find_filter [Std.LawfulEqOrd κ] (k : κ) (p : κ → Bool) (l : List (κ × α)) :
    find k (l.filter fun e => p e.1) = if p k then find k l else none := by
  induction l with
  | nil => simp [find]
  | cons hd tl ih =>
    by_cases hk : compare k hd.1 = .eq
    · cases Std.LawfulEqCmp.eq_of_compare hk
      by_cases hp : p hd.1 <;> simp_all [find]
    · by_cases hp : p hd.1 <;> simp_all [find]

/-- A filtered table answers the look-ups whose key passes, and no others. -/
theorem get?_filter [Std.LawfulEqOrd κ] (t : Table κ α) (p : κ → Bool) (k : κ) :
    (t.filter p).get? k = if p k then t.get? k else none :=
  find_filter k p t.entries

/-- A key that was erased has nothing. -/
@[simp] theorem get?_erase_self [Std.TransOrd κ] [Std.LawfulEqOrd κ] (t : Table κ α) (k : κ) :
    (t.erase k).get? k = none := by
  simp [erase, get?_filter]

/-- Erasing a key leaves other keys alone. -/
theorem get?_erase_of_ne [Std.LawfulEqOrd κ] (t : Table κ α) {k k' : κ} (h : k' ≠ k) :
    (t.erase k).get? k' = t.get? k' := by
  have : compare k k' ≠ .eq := fun heq => h (Std.LawfulEqCmp.eq_of_compare heq).symm
  simp [erase, get?_filter, this]

/-- What is found under a key is an entry with it. -/
theorem mem_of_find [Std.LawfulEqOrd κ] {k : κ} {v : α} {l : List (κ × α)}
    (h : find k l = some v) : (k, v) ∈ l := by
  induction l with
  | nil => simp [find] at h
  | cons hd tl ih =>
    unfold find at h
    split at h
    · rename_i heq
      cases Std.LawfulEqCmp.eq_of_compare heq
      cases h
      exact List.mem_cons_self
    · exact List.mem_cons_of_mem _ (ih h)

/-- In ascending order an entry is found under its key. -/
theorem find_of_mem [Std.TransOrd κ] [Std.LawfulEqOrd κ] {k : κ} {v : α} {l : List (κ × α)}
    (hl : l.Pairwise fun a b => compare a.1 b.1 = .lt) (h : (k, v) ∈ l) : find k l = some v := by
  induction l with
  | nil => simp at h
  | cons hd tl ih =>
    obtain ⟨hhd, htl⟩ := List.pairwise_cons.1 hl
    rcases List.mem_cons.1 h with rfl | h
    · simp [find]
    · have hlt : compare k hd.1 ≠ .eq := by
        rw [Std.OrientedCmp.gt_of_lt (hhd _ h)]
        decide
      unfold find
      rw [if_neg hlt]
      exact ih htl h

/-- An entry is listed exactly if its key answers its value. -/
theorem mem_entries_iff [Std.TransOrd κ] [Std.LawfulEqOrd κ] {t : Table κ α} {k : κ} {v : α} :
    (k, v) ∈ t.entries ↔ t.get? k = some v :=
  ⟨find_of_mem t.ascending, mem_of_find⟩

end Table

end EntityScript
