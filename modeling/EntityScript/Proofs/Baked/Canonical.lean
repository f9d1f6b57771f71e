import EntityScript.Proofs.Baked.Faithful
import EntityScript.Proofs.Text.Bytewise

/-!
# Reading brings bytes into one form

A script may be read from bytes that no script is baked to: numbers may be longer than they need to
be, tables may list their entries in any order and name a key twice, and anything may follow. Baking
what was read leaves all this out. The bytes are read back as the same script, no bytes are added to
those that were used, and tables are listed in the order of the bytes of their keys.

A reader is frugal for a writer if it never uses fewer bytes than the writer would have put for what
is answered, and answers only what can be counted. As for `Takes`, readers that are put together are
frugal if their parts are (`Uses.trans`). Tables are where bytes are lost: of two entries with one
key only one is put.
-/

namespace EntityScript

namespace Baked

variable {α β : Type}

/-- One reader after another answers if both do. -/
theorem Reader.bind_eq_ok {take : Reader α} {next : α → Reader β} {input rest : List UInt8}
    {y : β} : (take >>= next) input = .ok (y, rest) ↔
      ∃ x mid, take input = .ok (x, mid) ∧ next x mid = .ok (y, rest) := by
  change (take input).bind (fun p => next p.1 p.2) = _ ↔ _
  cases take input with
  | error e => exact ⟨nofun, fun ⟨x, mid, h, _⟩ => nomatch h⟩
  | ok p =>
    constructor
    · exact fun h => ⟨p.1, p.2, rfl, h⟩
    · rintro ⟨x, mid, h, hnext⟩
      cases h
      exact hnext

/-- A reader that reads nothing answers with its value and the whole input. -/
theorem Reader.pure_eq_ok {x y : α} {input rest : List UInt8}
    (h : (Pure.pure x : Reader α) input = .ok (y, rest)) : x = y ∧ input = rest := by
  cases h
  exact ⟨rfl, rfl⟩

/-- The front of an input is used, and is not shorter than some bytes. -/
structure Uses (input bytes rest : List UInt8) : Prop where
  left : rest <:+ input
  enough : bytes.length + rest.length ≤ input.length

namespace Uses

variable {input mid rest bytes more : List UInt8}

/-- Taking nothing uses no byte. -/
theorem refl (input : List UInt8) : Uses input [] input :=
  ⟨List.suffix_rfl, by rw [List.length_nil, Nat.zero_add]⟩

/-- What two readers use one after the other lies end to end in the input. -/
theorem trans (h₁ : Uses input bytes mid) (h₂ : Uses mid more rest) :
    Uses input (bytes ++ more) rest where
  left := h₂.left.trans h₁.left
  enough := by
    have hfirst := h₁.enough
    have hsecond := h₂.enough
    rw [List.length_append]
    omega

/-- Fewer bytes would do as well. -/
theorem mono (h : Uses input more rest) (hle : bytes.length ≤ more.length) :
    Uses input bytes rest :=
  ⟨h.left, Nat.le_trans (Nat.add_le_add_right hle _) h.enough⟩

end Uses

/-- A reader answers only what has a property, and uses no fewer bytes than are put for it. -/
def Frugal (take : Reader α) (put : α → List UInt8) (p : α → Prop) : Prop :=
  ∀ input x rest, take input = .ok (x, rest) → p x ∧ Uses input (put x) rest

/-- No number is written in fewer than one byte. -/
theorem length_putVarint_pos (n : ℕ) : 0 < (putVarint n).length := by
  rw [putVarint]
  split <;> exact Nat.succ_pos _

/-- A larger number does not take fewer bytes. -/
theorem length_putVarint_le {m n : ℕ} (h : m ≤ n) :
    (putVarint m).length ≤ (putVarint n).length := by
  induction n using Nat.strongRecOn generalizing m with
  | ind n ih =>
    rw [putVarint.eq_1 m]
    split
    · exact length_putVarint_pos n
    · rename_i hm
      have hn : ¬ n < 128 := fun hn => hm (Nat.lt_of_le_of_lt h hn)
      rw [putVarint.eq_1 n, if_neg hn, List.length_cons, List.length_cons]
      exact Nat.succ_le_succ (ih (n / 128) (by omega) (Nat.div_le_div_right h))

/-- A byte is read from exactly the byte that is written for it. -/
theorem frugal_byte : Frugal Reader.byte (fun b => [b]) fun _ => True := by
  intro input b rest h
  cases input with
  | nil => cases h
  | cons c input =>
    cases h
    refine ⟨trivial, List.suffix_cons .., ?_⟩
    rw [List.length_singleton, List.length_cons, Nat.add_comm]

/-- Reading a number of bytes uses these bytes and no others. -/
theorem uses_bytes {count : ℕ} {input taken rest : List UInt8}
    (h : Reader.bytes count input = .ok (taken, rest)) :
    taken.length = count ∧ Uses input taken rest := by
  unfold Reader.bytes at h
  dsimp only at h
  split at h
  · rename_i hlength
    cases h
    refine ⟨hlength, List.drop_suffix .., ?_⟩
    rw [← List.length_append, List.take_append_drop]
  · cases h

/-- A counting number is as small as its last byte may be large. It may have been longer than it
needs to be. -/
theorem frugal_varintWithin (last length : ℕ) :
    Frugal (takeVarintWithin last (length + 1)) putVarint
      fun n => n < 128 ^ length * (last + 1) := by
  induction length with
  | zero =>
    intro input n rest h
    rw [takeVarintWithin] at h
    obtain ⟨b, mid, hbyte, h⟩ := Reader.bind_eq_ok.1 h
    have huses := (frugal_byte input b mid hbyte).2
    split at h
    · rename_i hsmall
      split at h
      · cases h
      · rename_i hfits
        obtain ⟨rfl, rfl⟩ := Reader.pure_eq_ok h
        refine ⟨by omega, huses.mono ?_⟩
        rw [putVarint, if_pos hsmall, List.length_singleton, List.length_singleton]
    · obtain ⟨n, mid, h, -⟩ := Reader.bind_eq_ok.1 h
      cases h
  | succ length ih =>
    intro input n rest h
    rw [takeVarintWithin] at h
    obtain ⟨b, mid, hbyte, h⟩ := Reader.bind_eq_ok.1 h
    have huses := (frugal_byte input b mid hbyte).2
    have hroom : 128 ≤ 128 ^ (length + 1) * (last + 1) := by
      rw [Nat.pow_succ, Nat.mul_right_comm]
      exact Nat.le_mul_of_pos_left _ (Nat.mul_pos (Nat.pow_pos (by omega)) (Nat.succ_pos _))
    split at h
    · rename_i hsmall
      rw [if_neg fun hand => absurd hand.1 (Nat.succ_ne_zero _)] at h
      obtain ⟨rfl, rfl⟩ := Reader.pure_eq_ok h
      refine ⟨by omega, huses.mono ?_⟩
      rw [putVarint, if_pos hsmall, List.length_singleton, List.length_singleton]
    · rename_i hlarge
      obtain ⟨m, mid', hm, h⟩ := Reader.bind_eq_ok.1 h
      obtain ⟨rfl, rfl⟩ := Reader.pure_eq_ok h
      obtain ⟨hbound, huses'⟩ := ih mid m mid' hm
      have hb : b.toNat < 256 := b.toNat_lt
      constructor
      · rw [Nat.pow_succ, Nat.mul_right_comm]
        omega
      · -- Seven bits of the number are in this byte, and the others in those that follow.
        have hdiv : (b.toNat - 128 + 128 * m) / 128 = m := by omega
        have hboth := huses.trans huses'
        refine hboth.mono ?_
        rw [putVarint]
        split
        · rw [List.length_append]
          exact Nat.le_add_right 1 _
        · rw [List.length_cons, hdiv, List.length_append, List.length_singleton, Nat.add_comm]

/-- A length read from some bytes is written in no more bytes than these. -/
theorem frugal_length : Frugal takeLength putVarint fun n => n < 2 ^ 64 := frugal_varintWithin 1 9

/-- The number of a variant is written in no more bytes than it was read from. -/
theorem frugal_variant : Frugal takeVariant putVarint fun n => n < 2 ^ 32 :=
  frugal_varintWithin 15 4

/-- A text read from UTF-8 has these bytes as its own. -/
theorem toUTF8_of_read {bytes : List UInt8} {s : String}
    (h : String.fromUTF8? ⟨bytes.toArray⟩ = some s) : s.toUTF8.data.toList = bytes := by
  unfold String.fromUTF8? at h
  split at h
  · cases h
    rfl
  · cases h

/-- A string is written in no more bytes than it was read from. -/
theorem frugal_string : Frugal takeString putString countableText := by
  intro input s rest h
  obtain ⟨count, mid, hcount, h⟩ := Reader.bind_eq_ok.1 h
  obtain ⟨bytes, mid', hbytes, h⟩ := Reader.bind_eq_ok.1 h
  obtain ⟨hbound, huses⟩ := frugal_length input count mid hcount
  obtain ⟨hlength, huses'⟩ := uses_bytes hbytes
  cases hread : String.fromUTF8? ⟨bytes.toArray⟩ with
  | none =>
    rw [hread] at h
    cases h
  | some s' =>
    rw [hread] at h
    obtain ⟨rfl, rfl⟩ := Reader.pure_eq_ok h
    have hutf8 := toUTF8_of_read hread
    have hsize : s'.utf8ByteSize = count := by
      rw [← hlength, ← hutf8]
      rfl
    refine ⟨by rw [countableText, hsize]; exact hbound, ?_⟩
    rw [putString, hsize, hutf8]
    exact huses.trans huses'

variable {take : Reader α} {put : α → List UInt8} {p : α → Prop}

/-- Items read one behind the other are written in no more bytes than they were read from, when this
holds of each. -/
theorem Frugal.itemsOnto (h : Frugal take put p) (count : ℕ) :
    ∀ (taken : Array α) (input : List UInt8) (items : Array α) (rest : List UInt8),
      Reader.itemsOnto take count taken input = .ok (items, rest) →
      ∃ more : List α, items = taken ++ more.toArray ∧ more.length = count ∧
        (∀ x ∈ more, p x) ∧ Uses input (more.flatMap put) rest := by
  induction count with
  | zero =>
    intro taken input items rest hitems
    obtain ⟨rfl, rfl⟩ := Reader.pure_eq_ok hitems
    exact ⟨[], Array.append_empty.symm, rfl, nofun, .refl _⟩
  | succ count ih =>
    intro taken input items rest hitems
    obtain ⟨x, mid, hx, hitems⟩ := Reader.bind_eq_ok.1 hitems
    obtain ⟨hp, huses⟩ := h input x mid hx
    obtain ⟨more, rfl, hlength, hmore, huses'⟩ := ih _ mid items rest hitems
    refine ⟨x :: more, ?_, by rw [List.length_cons, hlength], ?_, huses.trans huses'⟩
    · simp
    · exact List.forall_mem_cons.2 ⟨hp, hmore⟩

/-- An array is written in no more bytes than it was read from, when this holds of its items. -/
theorem Frugal.array (h : Frugal take put p) : Frugal (takeArray take) (putArray put)
    fun items => items.size < 2 ^ 64 ∧ ∀ x ∈ items.toList, p x := by
  intro input items rest hitems
  obtain ⟨count, mid, hcount, hitems⟩ := Reader.bind_eq_ok.1 hitems
  obtain ⟨hbound, huses⟩ := frugal_length input count mid hcount
  obtain ⟨more, rfl, rfl, hmore, huses'⟩ := h.itemsOnto count _ mid items rest hitems
  rw [Array.empty_append, putArray, List.size_toArray]
  exact ⟨⟨hbound, hmore⟩, huses.trans huses'⟩

/-- Of the entries of a table only those are put that count, one for each key. -/
theorem Frugal.table (h : Frugal take put p) :
    Frugal (takeTable take) (putTable put) fun t => t.Countable p := by
  intro input t rest ht
  have hentry : Frugal (do let k ← takeString; let v ← take; Pure.pure (k, v))
      (fun e => putString e.1 ++ put e.2) fun e => countableText e.1 ∧ p e.2 := by
    intro input e rest he
    obtain ⟨k, mid, hk, he⟩ := Reader.bind_eq_ok.1 he
    obtain ⟨v, mid', hv, he⟩ := Reader.bind_eq_ok.1 he
    obtain ⟨rfl, rfl⟩ := Reader.pure_eq_ok he
    obtain ⟨hkey, huses⟩ := frugal_string input k mid hk
    obtain ⟨hvalue, huses'⟩ := h mid v mid' hv
    exact ⟨⟨hkey, hvalue⟩, huses.trans huses'⟩
  obtain ⟨entries, mid, hentries, ht⟩ := Reader.bind_eq_ok.1 ht
  obtain ⟨rfl, rfl⟩ := Reader.pure_eq_ok ht
  obtain ⟨⟨hbound, hall⟩, huses⟩ := hentry.array input entries mid hentries
  have hsize := Table.size_ofList_le entries.toList
  rw [Array.length_toList] at hsize
  refine ⟨⟨Nat.lt_of_le_of_lt hsize hbound, fun e he => hall e (Table.mem_ofList he)⟩,
    huses.mono ?_⟩
  rw [putTable, putArray, List.length_append, List.length_append]
  exact Nat.add_le_add (length_putVarint_le hsize) (Table.length_flatMap_ofList_le _ _)

/-- A number is written in as many bytes as it was read from. -/
theorem frugal_number : Frugal takeNumber putNumber fun _ => True := by
  intro input n rest h
  obtain ⟨bytes, mid, hbytes, h⟩ := Reader.bind_eq_ok.1 h
  obtain ⟨rfl, rfl⟩ := Reader.pure_eq_ok h
  obtain ⟨hlength, huses⟩ := uses_bytes hbytes
  refine ⟨trivial, huses.mono ?_⟩
  rw [putNumber, length_littleEndian, hlength]

/-- A truth value is written in as many bytes as it was read from. -/
theorem frugal_bool : Frugal takeBool putBool fun _ => True := by
  intro input b rest h
  obtain ⟨byte, mid, hbyte, h⟩ := Reader.bind_eq_ok.1 h
  have huses := (frugal_byte input byte mid hbyte).2
  have hlength : (putBool b).length ≤ [byte].length := Nat.le_refl 1
  split at h
  · obtain ⟨rfl, rfl⟩ := Reader.pure_eq_ok h
    exact ⟨trivial, huses.mono hlength⟩
  · split at h
    · obtain ⟨rfl, rfl⟩ := Reader.pure_eq_ok h
      exact ⟨trivial, huses.mono hlength⟩
    · cases h

/-- A value is written in no more bytes than it was read from. -/
theorem frugal_value : Frugal takeValue putValue Value.Countable := by
  intro input v rest h
  obtain ⟨alternative, mid, halternative, h⟩ := Reader.bind_eq_ok.1 h
  have huses := (frugal_variant input alternative mid halternative).2
  split at h
  · obtain ⟨n, mid', hn, h⟩ := Reader.bind_eq_ok.1 h
    obtain ⟨rfl, rfl⟩ := Reader.pure_eq_ok h
    exact ⟨trivial, huses.trans (frugal_number mid n mid' hn).2⟩
  · obtain ⟨x, mid', hx, h⟩ := Reader.bind_eq_ok.1 h
    obtain ⟨y, mid'', hy, h⟩ := Reader.bind_eq_ok.1 h
    obtain ⟨rfl, rfl⟩ := Reader.pure_eq_ok h
    have hboth := (frugal_number mid x mid' hx).2.trans (frugal_number mid' y mid'' hy).2
    exact ⟨trivial, huses.trans hboth⟩
  · obtain ⟨b, mid', hb, h⟩ := Reader.bind_eq_ok.1 h
    obtain ⟨rfl, rfl⟩ := Reader.pure_eq_ok h
    exact ⟨trivial, huses.trans (frugal_bool mid b mid' hb).2⟩
  · obtain ⟨text, mid', htext, h⟩ := Reader.bind_eq_ok.1 h
    obtain ⟨rfl, rfl⟩ := Reader.pure_eq_ok h
    obtain ⟨hcountable, huses'⟩ := frugal_string mid text mid' htext
    exact ⟨hcountable, huses.trans huses'⟩
  · cases h

/-- A type is written in no more bytes than it was read from. -/
theorem frugal_type : Frugal takeType putType fun _ => True := by
  intro input t rest h
  obtain ⟨alternative, mid, halternative, h⟩ := Reader.bind_eq_ok.1 h
  have huses := (frugal_variant input alternative mid halternative).2
  split at h
  case h_5 => cases h
  all_goals
    obtain ⟨rfl, rfl⟩ := Reader.pure_eq_ok h
    exact ⟨trivial, huses⟩

/-- A chunk is written in no more bytes than it was read from. -/
theorem frugal_chunk : Frugal takeChunk putChunk Chunk.Countable := by
  intro input c rest h
  obtain ⟨name, input₁, hname, h⟩ := Reader.bind_eq_ok.1 h
  obtain ⟨code, input₂, hcode, h⟩ := Reader.bind_eq_ok.1 h
  obtain ⟨constants, input₃, hconstants, h⟩ := Reader.bind_eq_ok.1 h
  obtain ⟨lines, input₄, hlines, h⟩ := Reader.bind_eq_ok.1 h
  obtain ⟨rfl, rfl⟩ := Reader.pure_eq_ok h
  obtain ⟨name_countable, usesName⟩ := frugal_string _ _ _ hname
  obtain ⟨code_countable, usesCode⟩ := frugal_byte.array _ _ _ hcode
  obtain ⟨constants_countable, usesConstants⟩ := frugal_value.array _ _ _ hconstants
  obtain ⟨lines_countable, usesLines⟩ := frugal_length.array _ _ _ hlines
  exact ⟨⟨name_countable, code_countable.1, constants_countable.1, constants_countable.2,
      lines_countable.1, lines_countable.2⟩,
    usesName.trans (usesCode.trans (usesConstants.trans usesLines))⟩

/-- A whole script is written in no more bytes than it was read from. -/
theorem frugal_script : Frugal takeScript putScript Script.Countable := by
  intro input s rest h
  obtain ⟨name, input₁, hname, h⟩ := Reader.bind_eq_ok.1 h
  obtain ⟨path, input₂, hpath, h⟩ := Reader.bind_eq_ok.1 h
  obtain ⟨states, input₃, hstates, h⟩ := Reader.bind_eq_ok.1 h
  obtain ⟨handlers, input₄, hhandlers, h⟩ := Reader.bind_eq_ok.1 h
  obtain ⟨declared, input₅, hdeclared, h⟩ := Reader.bind_eq_ok.1 h
  obtain ⟨rfl, rfl⟩ := Reader.pure_eq_ok h
  obtain ⟨name_countable, usesName⟩ := frugal_string _ _ _ hname
  obtain ⟨path_countable, usesPath⟩ := frugal_string _ _ _ hpath
  obtain ⟨states_countable, usesStates⟩ := frugal_string.array _ _ _ hstates
  obtain ⟨handlers_countable, usesHandlers⟩ := frugal_chunk.table.table _ _ _ hhandlers
  obtain ⟨declared_countable, usesDeclared⟩ := frugal_type.table _ _ _ hdeclared
  exact ⟨⟨name_countable, path_countable, states_countable.1, states_countable.2,
      handlers_countable, declared_countable⟩,
    usesName.trans (usesPath.trans (usesStates.trans (usesHandlers.trans usesDeclared)))⟩

/-- Takes a table as it is listed: every entry, in the order in which they come. -/
def takeListing (item : Reader α) : Reader (Array (String × α)) := do
  let entry : Reader (String × α) := do
    let k ← takeString
    let v ← item
    pure (k, v)
  takeArray entry

end Baked

/-- What bytes list of a script. A key may come twice, and keys may come in any order. -/
structure Listed where
  name : String
  path : String
  states : List String
  handlers : Array (String × Array (String × Chunk))
  declared : Array (String × ValueType)

namespace Listed

/-- Of entries with one key the last counts. -/
def script (l : Listed) : Script where
  name := l.name
  path := l.path
  states := l.states
  handlers := .ofList (l.handlers.toList.map fun e => (e.1, .ofList e.2.toList))
  declared := .ofList l.declared.toList

end Listed

namespace Baked

/-- Takes what is listed of a script. -/
def takeListed : Reader Listed := do
  let name ← takeString
  let path ← takeString
  let states ← takeArray takeString
  let handlers ← takeListing (takeListing takeChunk)
  let declared ← takeListing takeType
  pure { name, path, states := states.toList, handlers, declared }

/-- Changing each item after reading is reading the items and changing them all. -/
theorem itemsOnto_map (f : α → β) (take : Reader α) (count : ℕ) :
    ∀ taken : Array α, Reader.itemsOnto (f <$> take) count (taken.map f)
      = Array.map f <$> Reader.itemsOnto take count taken := by
  induction count with
  | zero => exact fun _ => rfl
  | succ count ih =>
    intro taken
    rw [Reader.itemsOnto, Reader.itemsOnto, bind_map_left, map_bind]
    refine bind_congr fun x => ?_
    rw [← ih, Array.map_push]

/-- Changing each item of an array after reading is reading the array and changing all its items. -/
theorem takeArray_map (f : α → β) (take : Reader α) :
    takeArray (f <$> take) = Array.map f <$> takeArray take := by
  rw [takeArray, takeArray, map_bind]
  refine bind_congr fun count => ?_
  rw [← itemsOnto_map, Array.map_empty]

/-- Changing what is listed under each key is reading the listing and changing its entries. -/
theorem takeListing_map (f : α → β) (take : Reader α) :
    takeListing (f <$> take) = (Array.map fun e => (e.1, f e.2)) <$> takeListing take := by
  rw [takeListing, takeListing, ← takeArray_map]
  simp only [map_bind, bind_map_left, map_pure]

/-- A table is a listing whose entries are put one after the other. -/
theorem takeTable_eq (take : Reader α) :
    takeTable take = (fun entries => Table.ofList entries.toList) <$> takeListing take := by
  rw [map_eq_pure_bind]
  rfl

/-- A script is read by making tables of what is listed. -/
theorem takeScript_eq : takeScript = Listed.script <$> takeListed := by
  have hhandlers : takeTable (takeTable takeChunk)
      = (fun entries => Table.ofList (entries.toList.map fun e => (e.1, .ofList e.2.toList)))
        <$> takeListing (takeListing takeChunk) := by
    rw [takeTable_eq takeChunk, takeTable_eq, takeListing_map, ← comp_map]
    congr 1
    funext entries
    rw [Function.comp_apply, Array.toList_map]
  rw [takeScript, takeListed, hhandlers, takeTable_eq takeType]
  simp only [map_bind, bind_map_left, map_pure]
  rfl

/-- A listing is taken as it was put. -/
theorem Takes.listing {take : Reader α} {put : α → List UInt8} {entries : List (String × α)}
    (hlength : entries.length < 2 ^ 64)
    (h : ∀ e ∈ entries, countableText e.1 ∧ Takes take (put e.2) e.2) :
    Takes (takeListing take) (putArray (fun e => putString e.1 ++ put e.2) entries.toArray)
      entries.toArray :=
  array hlength fun e he => (string (h e he).1).bind ((h e he).2.map rfl)

end Baked

namespace Listed

/-- Entries have the order of the bytes of their keys, and no key comes twice. -/
def Bytewise {α : Type} (entries : List (String × α)) : Prop :=
  entries.Pairwise fun a b => textBytes a.1 < textBytes b.1

/-- All that is listed has the order of the bytes of its keys. -/
structure Ascending (l : Listed) : Prop where
  handlers : Bytewise l.handlers.toList
  events : ∀ e ∈ l.handlers.toList, Bytewise e.2.toList
  declared : Bytewise l.declared.toList

/-- The entries of a table stand in the order of the bytes of their keys. -/
theorem bytewise_entries {α : Type} (t : Table String α) : Bytewise t.entries :=
  t.ascending.imp textBytes_lt

end Listed

namespace Script

/-- A script as its bytes list it. -/
def listed (s : Script) : Listed where
  name := s.name
  path := s.path
  states := s.states
  handlers := (s.handlers.entries.map fun e => (e.1, e.2.entries.toArray)).toArray
  declared := s.declared.entries.toArray

/-- The tables of a script are listed with ascending keys, each key once. -/
theorem listed_ascending (s : Script) : s.listed.Ascending where
  handlers := List.pairwise_map.2 (Listed.bytewise_entries s.handlers)
  events := by
    intro e he
    obtain ⟨e, -, rfl⟩ := List.mem_map.1 he
    exact Listed.bytewise_entries e.2
  declared := Listed.bytewise_entries s.declared

/-- Making tables of what the bytes of a script list gives the script. -/
theorem script_listed (s : Script) : s.listed.script = s := by
  have hhandlers : (s.handlers.entries.map fun e => (e.1, e.2.entries.toArray)).map
      (fun e => (e.1, Table.ofList e.2.toList)) = s.handlers.entries := by
    rw [List.map_map]
    refine (List.map_congr_left fun e _ => ?_).trans (List.map_id _)
    exact congrArg (Prod.mk e.1) (Table.ofList_entries e.2)
  rw [Listed.script, listed]
  dsimp only
  rw [hhandlers, Table.ofList_entries, Table.ofList_entries]

/-- The bytes of a script list it. -/
theorem takes_listed {s : Script} (h : s.Countable) :
    Baked.Takes Baked.takeListed s.bake s.listed := by
  have hstates : Baked.Takes (Baked.takeArray Baked.takeString)
      (Baked.putArray Baked.putString s.states.toArray) s.states.toArray :=
    .array h.length fun state hstate => .string (h.states state hstate)
  let putEvents : Array (String × Chunk) → List UInt8 :=
    Baked.putArray fun e => Baked.putString e.1 ++ Baked.putChunk e.2
  have hevents (events : Table String Chunk) (h : events.Countable Chunk.Countable) :
      Baked.Takes (Baked.takeListing Baked.takeChunk) (putEvents events.entries.toArray)
        events.entries.toArray :=
    .listing h.1 fun e he => ⟨(h.2 e he).1, .chunk (h.2 e he).2⟩
  have hhandlers : Baked.Takes (Baked.takeListing (Baked.takeListing Baked.takeChunk))
      (Baked.putTable (Baked.putTable Baked.putChunk) s.handlers) s.listed.handlers := by
    have hput : Baked.putTable (Baked.putTable Baked.putChunk) s.handlers
        = Baked.putArray (fun e => Baked.putString e.1 ++ putEvents e.2) s.listed.handlers := by
      rw [Baked.putTable, Baked.putArray, listed, List.size_toArray, List.length_map,
        List.flatMap_map]
      rfl
    rw [hput]
    refine .listing ((List.length_map _).symm ▸ h.handlers.1) ?_
    intro e he
    obtain ⟨e, hmem, rfl⟩ := List.mem_map.1 he
    exact ⟨(h.handlers.2 e hmem).1, hevents e.2 (h.handlers.2 e hmem).2⟩
  have hdeclared : Baked.Takes (Baked.takeListing Baked.takeType)
      (Baked.putTable Baked.putType s.declared) s.declared.entries.toArray :=
    .listing h.declared.1 fun e he => ⟨(h.declared.2 e he).1, .type e.2⟩
  exact (Baked.Takes.string h.name).bind ((Baked.Takes.string h.path).bind (hstates.bind
    (hhandlers.bind (hdeclared.map rfl))))

end Script

/-- Whatever bytes a script was read from, baking it gives bytes that read as the script again, that
list it in the order of the bytes of its keys, that are no more than were used, and that stay as
they are. Of the entries that were read, the last with its key counts. -/
theorem unbake_canonical {bytes : List UInt8} {s : Script} (h : Script.unbake bytes = .ok s) :
    Script.unbake s.bake = .ok s ∧
      (∃ l, Baked.takeListed s.bake = .ok (l, []) ∧ l.Ascending ∧ l.script = s) ∧
      (∃ l used rest, bytes = used ++ rest ∧ Baked.takeListed bytes = .ok (l, rest) ∧
        Baked.takeScript bytes = .ok (s, rest) ∧ l.script = s ∧ s.bake.length ≤ used.length) ∧
      (Script.unbake s.bake).map Script.bake = .ok s.bake := by
  obtain ⟨rest, htaken⟩ : ∃ rest, Baked.takeScript bytes = .ok (s, rest) := by
    unfold Script.unbake at h
    cases htaken : Baked.takeScript bytes with
    | error e =>
      rw [htaken] at h
      cases h
    | ok p =>
      rw [htaken] at h
      cases h
      exact ⟨p.2, rfl⟩
  obtain ⟨hcountable, ⟨used, hused⟩, henough⟩ := Baked.frugal_script bytes s rest htaken
  have hagain : Script.unbake s.bake = .ok s := by
    have hwhole := (Baked.Takes.script hcountable).whole []
    rw [List.append_nil] at hwhole
    rw [Script.unbake, Script.bake, hwhole]
    rfl
  have hlisted : Baked.takeListed s.bake = .ok (s.listed, []) := by
    have hwhole := (Script.takes_listed hcountable).whole []
    rwa [List.append_nil] at hwhole
  obtain ⟨l, hl, hs⟩ : ∃ l, Baked.takeListed bytes = .ok (l, rest) ∧ l.script = s := by
    rw [Baked.takeScript_eq, map_eq_pure_bind] at htaken
    obtain ⟨l, mid, hl, hpure⟩ := Baked.Reader.bind_eq_ok.1 htaken
    obtain ⟨rfl, rfl⟩ := Baked.Reader.pure_eq_ok hpure
    exact ⟨l, hl, rfl⟩
  refine ⟨hagain, ⟨s.listed, hlisted, s.listed_ascending, s.script_listed⟩,
    ⟨l, used, rest, hused.symm, hl, htaken, hs, ?_⟩, by rw [hagain]; rfl⟩
  rw [← hused, List.length_append] at henough
  exact Nat.le_of_add_le_add_right henough

/-- A script in bytes that are longer than they need to be: numbers of too many bytes, states out of
order, a state that comes twice, with different handlers, and two bytes behind the end. -/
def looseBytes : List UInt8 :=
  [0x84, 0x00, 0x6C, 0x61, 0x6D, 0x70, 0, 1, 2, 0x6F, 0x6E,
    0x83, 0x80, 0x00,
    2, 0x6F, 0x6E, 0,
    3, 0x6F, 0x66, 0x66, 1, 1, 0x61,
      1, 0x62, 1, 0x60, 1, 0x80, 0x00, 1, 0, 0, 0, 0, 0, 0xF8, 0x7F, 1, 0x87, 0x00,
    2, 0x6F, 0x6E, 1, 1, 0x63, 0, 0, 0, 0,
    2, 1, 0x78, 2, 1, 0x78, 0x80, 0x00,
    0xFF, 0xFF]

/-- What these bytes stand for. -/
def looseScript : Script where
  name := "lamp"
  path := ""
  states := ["on"]
  handlers := .ofList [("off", .ofList [("a", {
      name := "b"
      code := #[0x60]
      constants := #[.number ⟨0x7FF8000000000001⟩]
      lines := #[7] })]),
    ("on", .ofList [("c", { name := "", code := #[], constants := #[], lines := #[] })])]
  declared := .ofList [("x", .number)]

/-- The loose bytes are read as the loose script, and its own bytes are read as that script again.
-/
theorem looseBytes_canonical : Script.unbake looseBytes = .ok looseScript ∧
    Script.unbake looseScript.bake = .ok looseScript := by
  have hread : Script.unbake looseBytes = .ok looseScript := by decide +kernel
  exact ⟨hread, (unbake_canonical hread).1⟩

end EntityScript
