import EntityScript.Baked.Wire
import EntityScript.Proofs.Table
import Mathlib.Algebra.Group.Nat.Defs
import Mathlib.Data.List.Infix
import Mathlib.Data.Nat.Notation

/-!
# Readers that take exactly what was written

A reader takes bytes for a value if it answers the value and leaves what follows the bytes, and if
it misses the end of every strict part of the bytes that it is given. Both halves go through
sequences at once: a part of two pieces is a part of the first, or the first and a part of the
second. So a reader that is a sequence of readers takes what a sequence of writers wrote.
-/

namespace EntityScript.Baked

variable {α β : Type}

/-- A reader takes exactly these bytes for a value, and needs all of them. -/
structure Takes (take : Reader α) (bytes : List UInt8) (x : α) : Prop where
  whole : ∀ rest, take (bytes ++ rest) = .ok (x, rest)
  cut : ∀ part, part <+: bytes → part ≠ bytes → take part = .error .unexpectedEnd

namespace Takes

/-- Reading nothing takes no byte and answers with the given value. -/
theorem pure (x : α) : Takes (Pure.pure x) [] x where
  whole _ := rfl
  cut _ hpart hne := absurd (List.prefix_nil.1 hpart) hne

/-- One reader after another takes the bytes of both. -/
theorem bind {take : Reader α} {next : α → Reader β} {bytes more : List UInt8} {x : α} {y : β}
    (h₁ : Takes take bytes x) (h₂ : Takes (next x) more y) :
    Takes (take >>= next) (bytes ++ more) y where
  whole rest := by
    have hfirst := h₁.whole (more ++ rest)
    change (take (bytes ++ more ++ rest)).bind (fun p => next p.1 p.2) = _
    rw [List.append_assoc, hfirst]
    exact h₂.whole rest
  cut part hpart hne := by
    change (take part).bind (fun p => next p.1 p.2) = _
    by_cases hlong : bytes <+: part
    · obtain ⟨rest, rfl⟩ := hlong
      have hrest : rest <+: more := (List.prefix_append_right_inj bytes).1 hpart
      have hrest_ne : rest ≠ more := fun heq => hne (by rw [heq])
      rw [h₁.whole rest]
      exact h₂.cut rest hrest hrest_ne
    · have hshort : part <+: bytes :=
        (List.prefix_or_prefix_of_prefix hpart (List.prefix_append bytes more)).resolve_right hlong
      rw [h₁.cut part hshort fun heq => hlong (heq ▸ List.prefix_refl part)]
      rfl

/-- What is made of a value does not need more bytes. -/
theorem map {take : Reader α} {next : α → Reader β} {bytes : List UInt8} {x : α} {y : β}
    (h : Takes take bytes x) (hy : next x = Pure.pure y) : Takes (take >>= next) bytes y := by
  have hbind := h.bind (hy ▸ pure y)
  rwa [List.append_nil] at hbind

/-- One byte is read back as it stands, and without it the input ends too early. -/
theorem byte (b : UInt8) : Takes Reader.byte [b] b where
  whole _ := rfl
  cut part hpart hne := by
    cases part with
    | nil => rfl
    | cons c part =>
      obtain ⟨rfl, hnil⟩ := List.cons_prefix_cons.1 hpart
      exact absurd (by rw [List.prefix_nil.1 hnil]) hne

/-- As many bytes as are asked for are read back, and with fewer the input ends too early. -/
theorem bytes (w : List UInt8) : Takes (Reader.bytes w.length) w w where
  whole rest := by simp [Reader.bytes]
  cut part hpart hne := by
    have hlength : part.length ≠ w.length := fun heq => hne (hpart.eq_of_length heq)
    have hle := hpart.length_le
    have htaken : (part.take w.length).length ≠ w.length := by
      rw [List.length_take]
      omega
    simp only [Reader.bytes, if_neg htaken]

/-- A counting number is taken if it is not too large for so many bytes. -/
theorem varintWithin {last : ℕ} (hlast : last < 128) (length : ℕ) :
    ∀ n, n < 128 ^ length * (last + 1) →
      Takes (takeVarintWithin last (length + 1)) (putVarint n) n := by
  induction length with
  | zero =>
    intro n hn
    rw [Nat.pow_zero, Nat.one_mul] at hn
    have hbyte : (UInt8.ofNat n).toNat = n := by
      rw [UInt8.toNat_ofNat', Nat.mod_eq_of_lt (by omega)]
    rw [putVarint, if_pos (by omega), takeVarintWithin]
    refine (byte _).map ?_
    rw [hbyte, if_pos (by omega), if_neg (by omega)]
  | succ length ih =>
    intro n hn
    rw [putVarint, takeVarintWithin]
    by_cases hsmall : n < 128
    · have hbyte : (UInt8.ofNat n).toNat = n := by
        rw [UInt8.toNat_ofNat', Nat.mod_eq_of_lt (by omega)]
      rw [if_pos hsmall]
      refine (byte _).map ?_
      rw [hbyte, if_pos hsmall, if_neg (by omega)]
    · have hbyte : (UInt8.ofNat (n % 128 + 128)).toNat = n % 128 + 128 := by
        rw [UInt8.toNat_ofNat', Nat.mod_eq_of_lt (by omega)]
      have hrest : n / 128 < 128 ^ length * (last + 1) := by
        rw [Nat.div_lt_iff_lt_mul (by omega)]
        rw [Nat.pow_succ] at hn
        calc n < 128 ^ length * 128 * (last + 1) := hn
          _ = 128 ^ length * (last + 1) * 128 := Nat.mul_right_comm _ _ _
      rw [if_neg hsmall, ← List.singleton_append]
      refine (byte _).bind ?_
      rw [hbyte, if_neg (by omega)]
      refine (ih _ hrest).map ?_
      have hsum : n % 128 + 128 - 128 + 128 * (n / 128) = n := by omega
      rw [hsum]

/-- Lengths and lines of 64 bits are taken. -/
theorem length {n : ℕ} (h : n < 2 ^ 64) : Takes takeLength (putVarint n) n :=
  varintWithin (by decide) 9 n (by simpa [lengthLimit] using h)

/-- The number of a variant is read back from its bytes. -/
theorem variant {n : ℕ} (h : n < 2 ^ 32) : Takes takeVariant (putVarint n) n :=
  varintWithin (by decide) 4 n (by simpa [variantLimit] using h)

/-- The bytes of a string whose length can be written are read back as that string. -/
theorem string {s : String} (h : s.utf8ByteSize < 2 ^ 64) : Takes takeString (putString s) s := by
  have hsize : s.toUTF8.data.toList.length = s.utf8ByteSize := rfl
  have hbytes := bytes s.toUTF8.data.toList
  rw [hsize] at hbytes
  refine (length h).bind (hbytes.map ?_)
  have hutf8 : String.fromUTF8? ⟨s.toUTF8.data.toList.toArray⟩ = some s := by
    rw [Array.toArray_toList]
    exact dif_pos s.isValidUTF8
  rw [hutf8]

/-- Items are taken one after another. -/
theorem itemsOnto {item : Reader α} {put : α → List UInt8} (items : List α) :
    ∀ taken : Array α, (∀ x ∈ items, Takes item (put x) x) →
      Takes (Reader.itemsOnto item items.length taken) (items.flatMap put)
        (taken ++ items.toArray) := by
  induction items with
  | nil =>
    intro taken _
    have hnone : Takes (Reader.itemsOnto item 0 taken) [] taken := pure taken
    simpa using hnone
  | cons x items ih =>
    intro taken h
    have hrest := ih (taken.push x) fun y hy => h y (List.mem_cons_of_mem _ hy)
    have hall : taken.push x ++ items.toArray = taken ++ (x :: items).toArray := by simp
    rw [hall] at hrest
    exact (h x List.mem_cons_self).bind hrest

/-- The bytes of an array are read back as that array, when those of each item are. -/
theorem array {item : Reader α} {put : α → List UInt8} {items : Array α}
    (hsize : items.size < 2 ^ 64) (h : ∀ x ∈ items.toList, Takes item (put x) x) :
    Takes (takeArray item) (putArray put items) items := by
  have hitems := itemsOnto items.toList #[] h
  rw [Array.length_toList] at hitems
  simp only [Array.toArray_toList, Array.empty_append] at hitems
  exact (length hsize).bind hitems

/-- A table is taken, its entries being put where they are. -/
theorem table {item : Reader α} {put : α → List UInt8} {t : Table String α}
    (hsize : t.size < 2 ^ 64)
    (h : ∀ e ∈ t.entries, e.1.utf8ByteSize < 2 ^ 64 ∧ Takes item (put e.2) e.2) :
    Takes (takeTable item) (putTable put t) t := by
  have hentries : Takes (takeArray (do let k ← takeString; let v ← item; Pure.pure (k, v)))
      (putArray (fun e => putString e.1 ++ put e.2) t.entries.toArray) t.entries.toArray :=
    array hsize fun e he => (string (h e he).1).bind ((h e he).2.map rfl)
  refine hentries.map ?_
  rw [Table.ofList_entries]

end Takes

end EntityScript.Baked
