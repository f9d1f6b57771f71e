import EntityScript.Table
import Mathlib.Data.List.Nodup
import Mathlib.Logic.Basic

/-!
# Tables from their entries

A table is the table of its own entries: putting entries in their order never moves one. It is also
the table of what its look-ups answer, so that two tables are equal if all look-ups agree:
`ext_get?`. What putting many entries does to a look-up is `get?_insertAll`.
-/

namespace EntityScript.Table

variable {κ α : Type} [Ord κ]

/-- A table is determined by its entries. -/
theorem eq_of_entries {t u : Table κ α} (h : t.entries = u.entries) : t = u := by
  cases t
  cases u
  cases h
  rfl

variable [Std.TransOrd κ]

/-- An entry with a key behind all others is put at the end. -/
theorem place_of_last {k : κ} {v : α} {l : List (κ × α)}
    (h : ∀ e ∈ l, compare e.1 k = .lt) : place k v l = l ++ [(k, v)] := by
  induction l with
  | nil => rfl
  | cons e l ih =>
    have hgt : compare k e.1 = .gt := Std.OrientedCmp.gt_of_lt (h e List.mem_cons_self)
    rw [place, hgt]
    dsimp only
    rw [ih fun e he => h e (List.mem_cons_of_mem _ he), List.cons_append]

/-- Ascending keys differ. -/
theorem pairwise_ne_of_ascending {l : List (κ × α)}
    (hl : l.Pairwise fun a b => compare a.1 b.1 = .lt) : l.Pairwise fun a b => a.1 ≠ b.1 := by
  refine hl.imp ?_
  intro a b hlt heq
  rw [heq] at hlt
  exact Std.OrientedCmp.not_lt_of_lt hlt hlt

/-- Lists with ascending keys are equal if they have the same entries. -/
theorem entries_eq_of_mem {l l' : List (κ × α)}
    (hl : l.Pairwise fun a b => compare a.1 b.1 = .lt)
    (hl' : l'.Pairwise fun a b => compare a.1 b.1 = .lt) (h : ∀ e, e ∈ l ↔ e ∈ l') : l = l' := by
  have hnodup {l : List (κ × α)} (hl : l.Pairwise fun a b => compare a.1 b.1 = .lt) : l.Nodup :=
    (pairwise_ne_of_ascending hl).imp fun hne heq => hne (congrArg Prod.fst heq)
  have hperm : l.Perm l' := (List.perm_ext_iff_of_nodup (hnodup hl) (hnodup hl')).2 h
  refine hperm.eq_of_pairwise ?_ hl hl'
  intro a b _ _ hab hba
  exact absurd hba (Std.OrientedCmp.not_lt_of_lt hab)

variable [Std.LawfulEqOrd κ]

/-- Ascending entries with keys behind those of a table are put behind its entries. -/
theorem entries_insertAll (t : Table κ α) (l : List (κ × α))
    (h : (t.entries ++ l).Pairwise fun a b => compare a.1 b.1 = .lt) :
    (t.insertAll l).entries = t.entries ++ l := by
  induction l generalizing t with
  | nil => exact (List.append_nil _).symm
  | cons e l ih =>
    have hlast : ∀ x ∈ t.entries, compare x.1 e.1 = .lt := fun x hx =>
      (List.pairwise_append.1 h).2.2 x hx e List.mem_cons_self
    have hentries : (t.insert e.1 e.2).entries = t.entries ++ [e] := place_of_last hlast
    have hrest := ih (t.insert e.1 e.2) (by rw [hentries, List.append_assoc]; exact h)
    rw [hentries, List.append_assoc] at hrest
    exact hrest

/-- Putting the entries of a table in their order gives the table. -/
theorem ofList_entries (t : Table κ α) : ofList t.entries = t :=
  eq_of_entries (entries_insertAll empty t.entries t.ascending)

omit [Std.TransOrd κ] [Std.LawfulEqOrd κ] in
/-- Changing all values changes what a look-up answers. -/
theorem get?_map {β : Type} (f : α → β) (t : Table κ α) (k : κ) :
    (t.map f).get? k = (t.get? k).map f := by
  change find k (t.entries.map fun e => (e.1, f e.2)) = (find k t.entries).map f
  generalize t.entries = l
  induction l with
  | nil => rfl
  | cons e l ih =>
    rw [List.map_cons, find, find]
    split
    · rfl
    · exact ih

omit [Std.TransOrd κ] [Std.LawfulEqOrd κ] in
/-- Changing the values of a table changes none of its keys. -/
theorem contains_map {β : Type} (f : α → β) (t : Table κ α) (k : κ) :
    (t.map f).contains k = t.contains k := by
  rw [contains, contains, get?_map, Option.isSome_map]

/-- Tables that answer all look-ups alike are equal. -/
theorem ext_get? {t u : Table κ α} (h : ∀ k, t.get? k = u.get? k) : t = u := by
  apply eq_of_entries
  apply entries_eq_of_mem t.ascending u.ascending
  intro e
  rw [mem_entries_iff, mem_entries_iff, h]

/-- Putting an entry and changing all values may come in either order. -/
theorem map_insert {β : Type} (f : α → β) (t : Table κ α) (k : κ) (v : α) :
    (t.insert k v).map f = (t.map f).insert k (f v) := by
  refine ext_get? fun k' => ?_
  rw [get?_map]
  by_cases hk : k' = k
  · rw [hk, get?_insert_self, get?_insert_self]
    rfl
  · rw [get?_insert_of_ne _ hk, get?_insert_of_ne _ hk, get?_map]

/-- The values of a table are those under its keys. -/
theorem mem_values_iff {t : Table κ α} {v : α} : v ∈ t.values ↔ ∃ k, t.get? k = some v := by
  unfold values
  rw [List.mem_map]
  constructor
  · rintro ⟨⟨k, v⟩, hmem, rfl⟩
    exact ⟨k, mem_entries_iff.1 hmem⟩
  · rintro ⟨k, hget⟩
    exact ⟨(k, v), mem_entries_iff.2 hget, rfl⟩

omit [Std.TransOrd κ] in
/-- Where keys differ, every entry is found. -/
theorem find_eq_some_iff {l : List (κ × α)} (hl : l.Pairwise fun a b => a.1 ≠ b.1) {k : κ}
    {v : α} : find k l = some v ↔ (k, v) ∈ l := by
  refine ⟨mem_of_find, fun h => ?_⟩
  induction l with
  | nil => exact absurd h List.not_mem_nil
  | cons e l ih =>
    obtain ⟨he, hrest⟩ := List.pairwise_cons.1 hl
    rw [find]
    obtain rfl | h := List.mem_cons.1 h
    · rw [if_pos Std.ReflCmp.compare_self]
    · have hk : compare k e.1 ≠ .eq := fun heq =>
        he _ h (Std.LawfulEqCmp.eq_of_compare heq).symm
      rw [if_neg hk]
      exact ih hrest h

/-- Of the entries that are put, with different keys, each answers its key, and all other keys are
answered as before. -/
theorem get?_insertAll {l : List (κ × α)} (hl : l.Pairwise fun a b => a.1 ≠ b.1)
    (t : Table κ α) (k : κ) : (t.insertAll l).get? k = (find k l).or (t.get? k) := by
  induction l generalizing t with
  | nil => rfl
  | cons e l ih =>
    obtain ⟨he, hrest⟩ := List.pairwise_cons.1 hl
    change ((t.insert e.1 e.2).insertAll l).get? k = _
    rw [ih hrest, find]
    by_cases hk : compare k e.1 = .eq
    · obtain rfl : k = e.1 := Std.LawfulEqCmp.eq_of_compare hk
      have hnone : find e.1 l = none := by
        by_contra hsome
        obtain ⟨v, hv⟩ := Option.ne_none_iff_exists'.1 hsome
        exact he _ (mem_of_find hv) rfl
      rw [if_pos hk, hnone, get?_insert_self]
      rfl
    · have hne : k ≠ e.1 := fun heq => hk (by rw [heq]; exact Std.ReflCmp.compare_self)
      rw [if_neg hk, get?_insert_of_ne t hne]

omit [Std.TransOrd κ] [Std.LawfulEqOrd κ] in
/-- Placing an entry makes a list of entries longer by this entry at most, however entries are
measured. -/
theorem length_flatMap_place_le {β : Type} (f : κ × α → List β) (k : κ) (v : α)
    (l : List (κ × α)) :
    ((place k v l).flatMap f).length ≤ (l.flatMap f).length + (f (k, v)).length := by
  induction l with
  | nil => simp [place]
  | cons e l ih =>
    obtain ⟨k', v'⟩ := e
    unfold place
    split <;> simp only [List.flatMap_cons, List.length_append] at ih ⊢ <;> omega

/-- What entries come to, put together, grows by at most what is inserted. -/
theorem length_flatMap_insertAll_le {β : Type} (f : κ × α → List β) (l : List (κ × α)) :
    ∀ t : Table κ α, ((t.insertAll l).entries.flatMap f).length
      ≤ (t.entries.flatMap f).length + (l.flatMap f).length := by
  induction l with
  | nil => exact fun t => Nat.le_refl _
  | cons e l ih =>
    obtain ⟨k, v⟩ := e
    intro t
    have hrest : ((t.insertAll ((k, v) :: l)).entries.flatMap f).length
        ≤ ((t.insert k v).entries.flatMap f).length + (l.flatMap f).length := ih (t.insert k v)
    have hfirst : ((t.insert k v).entries.flatMap f).length
        ≤ (t.entries.flatMap f).length + (f (k, v)).length :=
      length_flatMap_place_le f k v t.entries
    rw [List.flatMap_cons, List.length_append]
    omega

/-- A table is no longer than the entries that it was made of, however entries are measured. -/
theorem length_flatMap_ofList_le {β : Type} (f : κ × α → List β) (l : List (κ × α)) :
    ((ofList l).entries.flatMap f).length ≤ (l.flatMap f).length := by
  have h := length_flatMap_insertAll_le f l empty
  rwa [empty, List.flatMap_nil, List.length_nil, Nat.zero_add] at h

/-- A table that is made of entries has at most as many. -/
theorem size_ofList_le (l : List (κ × α)) : (ofList l).size ≤ l.length := by
  have h := length_flatMap_ofList_le (fun e => [e]) l
  rwa [List.flatMap_singleton', List.flatMap_singleton'] at h

/-- An entry of a table with insertions was there or was inserted. -/
theorem mem_insertAll {e : κ × α} {l : List (κ × α)} :
    ∀ {t : Table κ α}, e ∈ (t.insertAll l).entries → e ∈ t.entries ∨ e ∈ l := by
  induction l with
  | nil => exact fun h => .inl h
  | cons e' l ih =>
    intro t h
    obtain h | h := ih h
    · obtain rfl | h := mem_place h
      · exact .inr List.mem_cons_self
      · exact .inl h
    · exact .inr (List.mem_cons_of_mem _ h)

/-- The entries of a table are among those that it was made of. -/
theorem mem_ofList {e : κ × α} {l : List (κ × α)} (h : e ∈ (ofList l).entries) : e ∈ l :=
  (mem_insertAll h).resolve_left List.not_mem_nil

end EntityScript.Table
