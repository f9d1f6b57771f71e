import EntityScript.Proofs.Compile.Written

/-!
# Interned constants

Indices of constants are handed out once and then stand in code, so a pool may only grow at its end,
and a value must be found again where it was put. `Chunk.Exact` is what makes this so: a pool keeps
to what one byte can name and holds no constant twice. Every call keeps it, and `intern_cases` says
all that a call can do: find a constant, add one, or refuse one because there is no room.
-/

namespace EntityScript

/-- Whether two values are one constant. Numbers are compared by their bits, so that neither signs
of zero nor the patterns of what is not a number are lost. -/
def Value.sameConstant : Value → Value → Bool
  | number a, number b => a.bits == b.bits
  | vec2 ax ay, vec2 bx byy => ax.bits == bx.bits && ay.bits == byy.bits
  | bool a, bool b => a == b
  | string a, string b => a == b
  | _, _ => false

/-- Only a value itself is the same constant. -/
theorem Value.sameConstant_iff (v w : Value) : v.sameConstant w = true ↔ v = w := by
  have hbits : ∀ a b : Number, a.bits = b.bits ↔ a = b := fun a b =>
    ⟨fun h => by cases a; cases b; cases h; rfl, congrArg Number.bits⟩
  cases v <;> cases w <;> simp [sameConstant, hbits]

namespace Chunk

/-- A chunk after values were interned one after another. -/
def interned (c : Chunk) (vs : List Value) : Chunk := vs.foldl (fun c v => (c.intern v).2) c

/-- A pool that one byte can name all constants of, and that holds none of them twice. -/
structure Exact (c : Chunk) : Prop where
  room : c.constants.size ≤ maxConstants
  distinct : c.constants.toList.Nodup

/-- The empty chunk has an exact pool. -/
theorem exact_empty (name : String) : (empty name).Exact := ⟨Nat.zero_le _, List.nodup_nil⟩

variable {c : Chunk} {v : Value} {i : UInt8}

/-- An index in one byte names the place that it was made from. -/
theorem constant?_ofNat {n : ℕ} (h : n < maxConstants) :
    c.constant? (UInt8.ofNat n) = c.constants[n]? := by
  rw [constant?, UInt8.toNat_ofNat_of_lt' h]

/-- Interning finds a constant where the pool holds it, or adds it at the end, or refuses it because
the pool is full. -/
theorem Exact.intern_cases (h : c.Exact) (v : Value) :
    (v ∈ c.constants.toList ∧
      ∃ i, c.constant? i = some v ∧ c.intern v = (some i, c)) ∨
    (v ∉ c.constants.toList ∧ c.constants.size < maxConstants ∧
      ∃ i, { c with constants := c.constants.push v }.constant? i = some v ∧
        c.intern v = (some i, { c with constants := c.constants.push v })) ∨
    (v ∉ c.constants.toList ∧ c.constants.size = maxConstants ∧ c.intern v = (none, c)) := by
  by_cases hv : v ∈ c.constants.toList
  · obtain ⟨n, hn, hget⟩ := List.mem_iff_getElem.1 hv
    have hidx : c.constants.toList.idxOf v = n := by rw [← hget, h.distinct.idxOf_getElem]
    have hlt : n < maxConstants := Nat.lt_of_lt_of_le (by simpa using hn) h.room
    refine .inl ⟨hv, UInt8.ofNat n, ?_, ?_⟩
    · rw [constant?_ofNat hlt, ← Array.getElem?_toList, List.getElem?_eq_getElem hn, hget]
    · unfold intern
      rw [findIdx?_constants, if_pos hv, hidx]
      simp only [byteIndex?, if_pos hlt]
  · by_cases hsize : c.constants.size < maxConstants
    · refine .inr (.inl ⟨hv, hsize, UInt8.ofNat c.constants.size, ?_, ?_⟩)
      · rw [constant?_ofNat hsize]
        exact Array.getElem?_push_size
      · unfold intern
        rw [findIdx?_constants, if_neg hv]
        simp only [byteIndex?, if_pos hsize]
    · refine .inr (.inr ⟨hv, Nat.le_antisymm h.room (Nat.le_of_not_lt hsize), ?_⟩)
      unfold intern
      rw [findIdx?_constants, if_neg hv]
      simp only [if_neg hsize]

/-- Interning a value keeps the pool exact. -/
theorem Exact.intern (h : c.Exact) (v : Value) : (c.intern v).2.Exact := by
  obtain ⟨-, i, -, heq⟩ | ⟨hv, hsize, i, -, heq⟩ | ⟨-, -, heq⟩ := h.intern_cases v <;> rw [heq]
  · exact h
  · refine ⟨by simpa using Nat.succ_le_of_lt hsize, ?_⟩
    rw [Array.toList_push]
    exact List.concat_eq_append ▸ h.distinct.concat hv
  · exact h

/-- An answer names the value that was asked for. -/
theorem Exact.constant?_of_intern (h : c.Exact) (hi : (c.intern v).1 = some i) :
    (c.intern v).2.constant? i = some v := by
  obtain ⟨-, j, hj, heq⟩ | ⟨-, -, j, hj, heq⟩ | ⟨-, -, heq⟩ := h.intern_cases v <;>
    rw [heq] at hi ⊢ <;> cases hi <;> exact hj

/-- A constant that is found in the pool is one of its values. -/
theorem mem_of_constant? (hi : c.constant? i = some v) : v ∈ c.constants.toList := by
  rw [constant?, ← Array.getElem?_toList] at hi
  exact List.mem_of_getElem? hi

/-- No two indices name one constant. -/
theorem Exact.idxOf_of_constant? (h : c.Exact) (hi : c.constant? i = some v) :
    c.constants.toList.idxOf v = i.toNat := by
  rw [constant?, ← Array.getElem?_toList] at hi
  obtain ⟨hlt, rfl⟩ := List.getElem?_eq_some_iff.1 hi
  exact h.distinct.idxOf_getElem _ hlt

/-- A constant that the pool holds is answered under the index that names it. -/
theorem Exact.intern_of_constant? (h : c.Exact) (hi : c.constant? i = some v) :
    c.intern v = (some i, c) := by
  obtain ⟨-, j, hj, heq⟩ | ⟨hv, -⟩ | ⟨hv, -⟩ := h.intern_cases v
  · have hsame : j.toNat = i.toNat :=
      (h.idxOf_of_constant? hj).symm.trans (h.idxOf_of_constant? hi)
    rw [heq, UInt8.toNat_inj.1 hsame]
  · exact absurd (mem_of_constant? hi) hv
  · exact absurd (mem_of_constant? hi) hv

/-- A pool only grows, at its end. -/
theorem Exact.prefix_intern (h : c.Exact) (v : Value) :
    c.constants.toList <+: (c.intern v).2.constants.toList := by
  obtain ⟨-, i, -, heq⟩ | ⟨-, -, i, -, heq⟩ | ⟨-, -, heq⟩ := h.intern_cases v
  · simp [heq]
  · simp [heq]
  · simp [heq]

/-- Interning any sequence of values keeps the pool exact. -/
theorem Exact.interned (h : c.Exact) (vs : List Value) : (c.interned vs).Exact := by
  induction vs generalizing c with
  | nil => exact h
  | cons v vs ih => exact ih (h.intern v)

/-- Interning more values leaves the pool so far at the front of the new one. -/
theorem Exact.prefix_interned (h : c.Exact) (vs : List Value) :
    c.constants.toList <+: (c.interned vs).constants.toList := by
  induction vs generalizing c with
  | nil => exact List.prefix_rfl
  | cons v vs ih => exact (h.prefix_intern v).trans (ih (h.intern v))

/-- What stands at a place of the pool stays there. -/
theorem Exact.getElem?_interned (h : c.Exact) {n : ℕ} (hn : c.constants[n]? = some v)
    (vs : List Value) : (c.interned vs).constants[n]? = some v := by
  rw [← Array.getElem?_toList] at hn ⊢
  obtain ⟨hlt, rfl⟩ := List.getElem?_eq_some_iff.1 hn
  exact List.prefix_iff_getElem?.1 (h.prefix_interned vs) n hlt

/-- Whether no constant of the pool is the given value. -/
def Lacks (c : Chunk) (v : Value) : Prop := ∀ w : Value, w ∈ c.constants → w.sameConstant v = false

/-- A chunk lacks a value if its pool does not hold it. -/
theorem lacks_iff (c : Chunk) (v : Value) : c.Lacks v ↔ v ∉ c.constants.toList := by
  have hne : ∀ w : Value, w.sameConstant v = false ↔ w ≠ v := fun w => by
    rw [← Bool.not_eq_true, Value.sameConstant_iff]
  simp only [Lacks, hne, Array.mem_toList_iff]
  exact ⟨fun h hv => h v hv rfl, fun h w hw heq => h (heq ▸ hw)⟩

/-- A value is refused exactly where there is no room for it. -/
theorem Exact.intern_eq_none_iff (h : c.Exact) :
    (c.intern v).1 = none ↔ c.constants.size = maxConstants ∧ c.Lacks v := by
  rw [lacks_iff]
  obtain ⟨hv, i, -, heq⟩ | ⟨-, hsize, i, -, heq⟩ | ⟨hv, hsize, heq⟩ := h.intern_cases v <;> rw [heq]
  · exact ⟨nofun, fun ⟨_, hlacks⟩ => absurd hv hlacks⟩
  · exact ⟨nofun, fun ⟨hfull, _⟩ => absurd hfull (Nat.ne_of_lt hsize)⟩
  · exact ⟨fun _ => ⟨hsize, hv⟩, fun _ => rfl⟩

/-- A value is added exactly if the pool lacks it and has room. -/
theorem Exact.intern_snd (h : c.Exact) (v : Value) :
    (c.Lacks v ∧ c.constants.size < maxConstants →
      (c.intern v).2 = { c with constants := c.constants.push v }) ∧
    (¬ (c.Lacks v ∧ c.constants.size < maxConstants) → (c.intern v).2 = c) := by
  rw [lacks_iff]
  obtain ⟨hv, i, -, heq⟩ | ⟨hv, hsize, i, -, heq⟩ | ⟨hv, hsize, heq⟩ := h.intern_cases v <;>
    rw [heq]
  · exact ⟨fun ⟨hlacks, _⟩ => absurd hv hlacks, fun _ => rfl⟩
  · exact ⟨fun _ => rfl, fun hnot => absurd ⟨hv, hsize⟩ hnot⟩
  · exact ⟨fun ⟨_, hlt⟩ => absurd hsize (Nat.ne_of_lt hlt), fun _ => rfl⟩

end Chunk

/-- Interning is exact, after whatever was interned before in a new chunk, and whatever is interned
later. The pool keeps to 256 constants, no two of them the same. An answer is the index of the
value, and the same value has the same index ever after. A value is refused exactly if the pool is
full and lacks it, which leaves the chunk as it was. No constant is moved or changed, and a value is
added exactly if it was lacking and there was room. -/
theorem interning_exact (name : String) (before : List Value) (v : Value) (after : List Value) :
    let c := (Chunk.empty name).interned before
    let c' := (c.intern v).2
    c.constants.size ≤ 256 ∧
    (∀ (m n : ℕ) (w x : Value), c.constants[m]? = some w → c.constants[n]? = some x →
      w.sameConstant x = true → m = n) ∧
    (∀ i, (c.intern v).1 = some i → (∃ w, c'.constant? i = some w ∧ w.sameConstant v = true) ∧
      ∀ x, v.sameConstant x = true → ((c'.interned after).intern x).1 = some i) ∧
    ((c.intern v).1 = none ↔ c.constants.size = 256 ∧ c.Lacks v) ∧
    ((c.intern v).1 = none → c' = c) ∧
    (∀ (n : ℕ) (w : Value), c.constants[n]? = some w →
      (c'.interned after).constants[n]? = some w) ∧
    (c.Lacks v ∧ c.constants.size < 256 → c' = { c with constants := c.constants.push v }) ∧
    (¬ (c.Lacks v ∧ c.constants.size < 256) → c' = c) := by
  intro c c'
  have hc : c.Exact := (Chunk.exact_empty name).interned before
  have hc' : c'.Exact := hc.intern v
  obtain ⟨hadded, hkept⟩ := hc.intern_snd v
  refine ⟨hc.room, ?_, ?_, hc.intern_eq_none_iff, ?_, ?_, hadded, hkept⟩
  · intro m n w x hm hn hsame
    obtain rfl := (Value.sameConstant_iff w x).1 hsame
    rw [← Array.getElem?_toList] at hm hn
    obtain ⟨hlt, -⟩ := List.getElem?_eq_some_iff.1 hm
    exact (List.getElem?_inj hlt hc.distinct).1 (hm.trans hn.symm)
  · intro i hi
    have hfound : c'.constant? i = some v := hc.constant?_of_intern hi
    refine ⟨⟨v, hfound, (Value.sameConstant_iff v v).2 rfl⟩, fun x hx => ?_⟩
    obtain rfl := (Value.sameConstant_iff v x).1 hx
    have hlater : (c'.interned after).constant? i = some v := hc'.getElem?_interned hfound after
    rw [(hc'.interned after).intern_of_constant? hlater]
  · intro hnone
    refine hkept fun ⟨_, hlt⟩ => ?_
    exact absurd (hc.intern_eq_none_iff.1 hnone).1 (Nat.ne_of_lt hlt)
  · intro n w hn
    exact hc'.getElem?_interned (hc.getElem?_interned hn [v]) after

/-- Zero and negative zero are two constants. -/
example : (((Chunk.empty "").interned [.number .zero]).intern (.number (-.zero))).1 = some 1 := by
  decide +kernel

end EntityScript
