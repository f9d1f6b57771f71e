import EntityScript.Proofs.Bytecode.Entries
import EntityScript.Proofs.Machine.Exhausted
import EntityScript.Proofs.Machine.Stepping

/-!
# Listings and the machine read code alike

A listing, the opcodes of a chunk and the machine each go through the code by themselves. Here they
are compared on all bytes, whether a compiler has made them or not: `listing_agrees`. Wherever an
entry of a listing is, the machine finds operands cut off if the entry says so, and no instruction
if the entry says so. Otherwise it goes on at the next entry, or where the entry says that a jump
leads.

Only the reading of an instruction can raise the two faults about its bytes. What an instruction
does to its frame and how an event is delivered raise other ones: `Readable` and its lemmas.
-/

namespace EntityScript

/-- A fault about the bytes of an instruction. -/
def Fault.OfBytes : Fault → Prop
  | .truncatedInstruction | .unknownOpcode _ => True
  | _ => False

/-- No fault about the bytes of an instruction. -/
def Readable {α : Type} (x : Except Fault α) : Prop := ∀ fault, x = .error fault → ¬ fault.OfBytes

namespace Readable

variable {α β : Type} {i : Invocation}

/-- An answer is no fault about bytes. -/
theorem pure (a : α) : Readable (pure a : Except Fault α) := nofun

/-- A fault that is not about bytes may be raised. -/
theorem error {fault : Fault} (h : ¬ fault.OfBytes) : Readable (.error fault : Except Fault α) := by
  intro fault' heq
  cases heq
  exact h

/-- One thing after another raises no fault about bytes if neither does. -/
theorem bind {x : Except Fault α} {next : α → Except Fault β} (h : Readable x)
    (hnext : ∀ a, Readable (next a)) : Readable (x >>= next) := by
  cases x with
  | error fault => exact error (h fault rfl)
  | ok a => exact hnext a

/-- Taking an operand raises no fault about bytes. -/
theorem pop (f : Frame) : Readable f.pop := by
  unfold Frame.pop
  split
  · exact pure _
  · exact error id

/-- Looking at an operand raises no fault about bytes. -/
theorem top (f : Frame) : Readable f.top := by
  unfold Frame.top
  split
  · exact pure _
  · exact error id

/-- Taking a text raises no fault about bytes. -/
theorem popText (f : Frame) (use : Use) : Readable (f.popText use) := by
  refine (pop f).bind fun taken => bind ?_ fun s => pure _
  cases taken.1 with
  | string s => exact pure s
  | number n | vec2 x y | bool b => exact error id

/-- Taking arguments raises no fault about bytes. -/
theorem popArguments (count : ℕ) :
    ∀ (f : Frame) (taken : List (String × Value)), Readable (f.popArguments taken count) := by
  induction count with
  | zero => exact fun f taken => pure _
  | succ count ih =>
    exact fun f taken => (pop f).bind fun v => (popText _ _).bind fun name => ih _ _

/-- Putting a value on the stack raises no fault about bytes. -/
theorem push (i : Invocation) (f : Frame) (v : Value) : Readable (i.push f v) := by
  unfold Invocation.push
  split
  · exact error id
  · exact pure _

/-- A constant that is missing is no fault about bytes. -/
theorem constant (i : Invocation) (index : UInt8) : Readable (i.constant index) := by
  unfold Invocation.constant
  split
  · exact pure _
  · exact error id

/-- A name that is missing is no fault about bytes. -/
theorem name (i : Invocation) (index : UInt8) : Readable (i.name index) := by
  refine (constant i index).bind fun v => ?_
  split
  · exact pure _
  · exact error id

/-- Taking an event raises no fault about bytes. -/
theorem popEvent (i : Invocation) (f : Frame) (index flags argc : UInt8) :
    Readable (i.popEvent f index flags argc) := by
  refine (name i index).bind fun event => (popArguments _ _ _).bind fun taken => ?_
  dsimp only
  split
  · exact (popText _ _).bind fun target => pure _
  · exact pure _

/-- Applying an operator raises no fault about bytes. -/
theorem apply (op : Operator) (left right : Value) : Readable (op.apply left right) := by
  intro fault h hbytes
  have hstructural := Operator.not_structural_of_apply h
  cases fault <;> first | exact hbytes | exact hstructural trivial

/-- Changing a sign raises no fault about bytes. -/
theorem negate (v : Value) : Readable v.negate := by
  cases v with
  | number n | vec2 x y => exact pure _
  | bool b | string s => exact error id

/-- Asking for a truth value raises no fault about bytes. -/
theorem truth (v : Value) (use : Use) : Readable (v.truth use) := by
  cases v with
  | bool b => exact pure b
  | number n | vec2 x y | string s => exact error id

/-- Asking for a component raises no fault about bytes. -/
theorem component (v : Value) (name : String) : Readable (v.component name) := by
  cases v with
  | vec2 x y =>
    unfold Value.component
    dsimp only
    split
    · exact pure _
    · split
      · exact pure _
      · exact error id
  | number n | bool b | string s => exact error id

/-- Changing the state raises no fault about bytes. -/
theorem changeState (c : Context) (state : String) : Readable (c.changeState state) := by
  unfold Context.changeState
  split
  · exact pure _
  · exact error id

/-- Performing an instruction that was read raises no fault about its bytes. -/
theorem perform (i : Invocation) (f : Frame) (x : Instruction) : Readable (i.perform f x) := by
  have hpush (f : Frame) (v : Value) :
      Readable (do return (Flow.forward 0, ← i.push f v) : Except Fault (Flow × Frame)) :=
    (push i f v).bind fun f => pure _
  cases x with
  | constant index => exact (constant i index).bind fun v => hpush f v
  | binary op =>
    exact (pop f).bind fun right => (pop _).bind fun left => (apply op _ _).bind fun v => hpush _ v
  | negate => exact (pop f).bind fun v => (negate _).bind fun v => hpush _ v
  | not => exact (pop f).bind fun v => (truth _ _).bind fun b => hpush _ _
  | getVariable index => exact (name i index).bind fun name => hpush f _
  | setVariable index => exact (name i index).bind fun name => (top f).bind fun v => pure _
  | getComponent index =>
    exact (name i index).bind fun name => (pop f).bind fun v =>
      (component _ _).bind fun v => hpush _ v
  | pop => exact (pop f).bind fun v => pure _
  | fireEvent index flags argc => exact (popEvent i f _ _ _).bind fun event => pure _
  | changeState index =>
    exact (name i index).bind fun state => (changeState _ _).bind fun context => pure _
  | jump distance => exact pure _
  | jumpIfFalse distance => exact (top f).bind fun v => (truth _ _).bind fun b => pure _
  | ret => exact pure _

/-- Delivering an event raises no fault about bytes in the handler that fired it. -/
theorem deliver {σ : Type} [Host σ] (i : Invocation) (nested : Option (Dispatcher σ))
    (event : Event) (f : Frame) (r : Run σ) : Readable (i.deliver nested event f r).1 := by
  unfold Invocation.deliver
  split
  · exact pure _
  · unfold Invocation.deliverTo
    split
    · exact error id
    · split
      · exact error id
      · split
        · exact pure _
        · split
          · exact pure _
          · split
            · exact error id
            · exact pure _

end Readable

namespace Invocation

variable {σ : Type} [Host σ] {i : Invocation} {nested : Option (Dispatcher σ)} {offset : ℕ}
  {h : offset < i.chunk.size} {s s' : Frame × Run σ}

/-- What an instruction does in place is what it does, where that is no delivery. -/
theorem perform_of_work {x : Instruction} {flow : Flow} {f f' : Frame}
    (h : InPlace.work i x f = .ok flow f') : i.perform f x = .ok (flow, f') := by
  rw [← InPlace.outcome_work, InPlace.outcome, h]

/-- A fault of an instruction in place is its fault. -/
theorem perform_error_of_work {x : Instruction} {fault : Fault} {f f' : Frame}
    (h : InPlace.work i x f = .error fault f') : i.perform f x = .error fault := by
  rw [← InPlace.outcome_work, InPlace.outcome, h]

/-- A fault about bytes is raised where an instruction is read. -/
theorem step_ofBytes {fault : Fault} (hstep : i.step nested offset h s = .error fault s')
    (hbytes : fault.OfBytes) :
    (∃ op, i.chunk.fetch offset h = .truncated op ∧ fault = .truncatedInstruction) ∨
      ∃ byte, i.chunk.fetch offset h = .unknown byte ∧ fault = .unknownOpcode byte := by
  unfold step at hstep
  split at hstep
  · rename_i op hfetch
    cases hstep
    exact .inl ⟨op, hfetch, rfl⟩
  · rename_i byte hfetch
    cases hstep
    exact .inr ⟨byte, hfetch, rfl⟩
  · rename_i x hfetch
    split at hstep
    · rename_i fault' f hwork
      cases hstep
      exact absurd hbytes (Readable.perform i s.1 x fault (perform_error_of_work hwork))
    · cases hstep
    · cases hstep
    · rename_i event f hwork
      split at hstep
      · rename_i hdelivered
        cases hstep
        exact absurd hbytes (Readable.deliver i nested event f s.2 fault (by rw [hdelivered]))
      · cases hstep

/-- A handler that faults does so where it begins or behind it. -/
theorem le_of_execute_fault {f : Frame} {r : Run σ} {place : ℕ} {fault : Fault}
    (hfault : (i.execute nested offset f r).1 = some (place, fault)) : offset ≤ place := by
  obtain ⟨last, s, hpasses, hstops⟩ := i.execute_passes nested offset (f, r)
  generalize i.execute nested offset (f, r).1 (f, r).2 = answer at hfault hstops
  cases hstops with
  | off => cases hfault
  | full => cases hfault; exact hpasses.le
  | faults => cases hfault; exact hpasses.le
  | returns => cases hfault

/-- A handler faults at the instruction where it is if this instruction faults. -/
theorem execute_fault_iff {f : Frame} {r r' : Run σ} {fault : Fault} (h : offset < i.chunk.size)
    (hbegun : i.beginStep r = (.ok (), r')) :
    (i.execute nested offset f r).1 = some (offset, fault) ↔
      ∃ s, i.step nested offset h (f, r') = .error fault s := by
  rw [execute_eq, dif_pos h, hbegun]
  dsimp only
  constructor
  · intro hfault
    split at hfault
    · rename_i s hstep
      cases hfault
      exact ⟨s, hstep⟩
    · cases hfault
    · rename_i next s hstep
      exact absurd (le_of_execute_fault hfault) (Nat.not_le_of_lt (step_lt hstep))
  · rintro ⟨s, hstep⟩
    rw [hstep]

end Invocation

/-- Behind an instruction, or where a jump leads. -/
theorem Instruction.successors_cases {x : Instruction} {offset next : ℕ}
    (h : next ∈ x.successors offset) : next = offset + x.size ∨
      ∃ distance : UInt16, (x = .jump distance ∨ x = .jumpIfFalse distance) ∧
        next = offset + x.size + distance.toNat := by
  cases x with
  | jump distance => exact .inr ⟨distance, .inl rfl, List.mem_singleton.1 h⟩
  | jumpIfFalse distance =>
    obtain h | h := List.mem_cons.1 h
    · exact .inl h
    · exact .inr ⟨distance, .inr rfl, List.mem_singleton.1 h⟩
  | ret => cases h
  | _ => exact .inl (List.mem_singleton.1 h)

namespace Chunk

/-- The entries of a listing take a chunk apart, at the offsets at which opcodes are read. -/
structure Listed (c : Chunk) : Prop where
  /-- The listing is one entry behind another, each with a line end. -/
  lines : c.listing = String.join (c.entries.map fun e => c.entryLine e ++ "\n")
  /-- From the first byte to the last, no entry is empty and none leaves a gap. -/
  endToEnd : EndToEnd c.size 0 c.entries
  ascending : c.entries.Pairwise fun e e' => e.offset < e'.offset
  /-- Every byte belongs to exactly one entry. -/
  parts : ∀ k < c.size, ∃! e, e ∈ c.entries ∧ e.offset ≤ k ∧ k < e.next
  offsets : c.entries.map Entry.offset = c.decoded
  opcodes : c.opcodes = c.decoded.map c.opcodeAt
  /-- The names in the listing are those of the opcodes, in their order. -/
  mnemonics : c.entries.map Entry.mnemonic = c.opcodes.map Opcode.mnemonic
  /-- If no text constant brings in a line end, there is one line for each entry. -/
  unbroken : c.UnbrokenTexts → (∀ e ∈ c.entries, Unbroken (c.entryLine e)) ∧
    c.listing.toList.count '\n' = c.entries.length

/-- The entries of every chunk take it apart. -/
theorem listed (c : Chunk) : c.Listed where
  lines := c.listing_eq
  endToEnd := endToEnd_entriesFrom (Nat.zero_le _)
  ascending := (endToEnd_entriesFrom (Nat.zero_le _)).ascending
  parts _ hk := (endToEnd_entriesFrom (Nat.zero_le _)).existsUnique (Nat.zero_le _) hk
  offsets := c.offset_entriesFrom 0
  opcodes := c.opcodes_eq
  mnemonics := c.mnemonics_eq
  unbroken hc := by
    have hunbroken : ∀ e ∈ c.entries, Unbroken (c.entryLine e) := fun e he =>
      unbroken_entryLine hc he
    refine ⟨hunbroken, ?_⟩
    rw [listing_eq]
    exact count_join hunbroken

namespace Entry

/-- What a handler does at the offset of an entry, once it may begin an instruction there. -/
structure Foretells {σ : Type} [Host σ] (e : Entry) (i : Invocation)
    (nested : Option (Dispatcher σ)) (inside : e.offset < i.chunk.size) (f : Frame)
    (r r' : Run σ) : Prop where
  truncated : (i.execute nested e.offset f r).1 = some (e.offset, .truncatedInstruction) ↔
    e.SaysTruncated
  unknown : (∃ byte, (i.execute nested e.offset f r).1 = some (e.offset, .unknownOpcode byte)) ↔
    e.SaysUnknown
  /-- It goes on at the next entry, or where the entry says that a jump leads. -/
  onward : ∀ next s, i.step nested e.offset inside (f, r') = .ok (some next) s →
    i.execute nested e.offset f r = i.execute nested next s.1 s.2 ∧
      (next = e.next ∨ e.SaysTarget next)

variable {σ : Type} [Host σ] {i : Invocation} {nested : Option (Dispatcher σ)} {e : Entry}
  {inside : e.offset < i.chunk.size} {s s' : Frame × Run σ}

/-- An instruction is cut off just if its entry says so. -/
theorem step_truncated_iff (he : e ∈ i.chunk.entries) :
    (∃ s', i.step nested e.offset inside s = .error .truncatedInstruction s') ↔
      e.SaysTruncated := by
  rw [saysTruncated_iff he]
  constructor
  · rintro ⟨s', hstep⟩
    obtain ⟨op, hfetch, -⟩ | ⟨byte, -, hfault⟩ := Invocation.step_ofBytes hstep trivial
    · obtain ⟨x, hfetch', -⟩ | ⟨-, -, hout⟩ | ⟨hfetch', -⟩ := fetch_cases inside
      · cases hfetch.symm.trans hfetch'
      · exact hout
      · cases hfetch.symm.trans hfetch'
    · cases hfault
  · intro hout
    obtain ⟨x, -, -, -, hin⟩ | ⟨hfetch, -⟩ | ⟨-, hopcode⟩ := fetch_cases inside
    · exact absurd hout (Nat.not_le_of_lt hin)
    · refine ⟨s, ?_⟩
      rw [Invocation.step, hfetch]
    · rw [hopcode] at hout
      exact absurd hout (Nat.not_le_of_lt inside)

/-- An instruction is unknown just if its entry says so. -/
theorem step_unknown_iff (he : e ∈ i.chunk.entries) :
    (∃ byte s', i.step nested e.offset inside s = .error (.unknownOpcode byte) s') ↔
      e.SaysUnknown := by
  rw [saysUnknown_iff he]
  constructor
  · rintro ⟨byte, s', hstep⟩
    obtain ⟨op, -, hfault⟩ | ⟨byte, hfetch, -⟩ := Invocation.step_ofBytes hstep trivial
    · cases hfault
    · obtain ⟨x, hfetch', -⟩ | ⟨hfetch', -⟩ | ⟨-, hopcode⟩ := fetch_cases inside
      · cases hfetch.symm.trans hfetch'
      · cases hfetch.symm.trans hfetch'
      · exact hopcode
  · intro hopcode
    obtain ⟨x, -, -, hknown, -⟩ | ⟨-, hknown, -⟩ | ⟨hfetch, -⟩ := fetch_cases inside
    · exact absurd hopcode hknown
    · exact absurd hopcode hknown
    · refine ⟨i.chunk.code[e.offset], s, ?_⟩
      rw [Invocation.step, hfetch]

/-- An instruction leads behind itself, or to the target of a jump. -/
theorem next_of_step {next : ℕ} (he : e ∈ i.chunk.entries)
    (hstep : i.step nested e.offset inside s = .ok (some next) s') :
    next = e.next ∨ e.SaysTarget next := by
  obtain ⟨_, -, hnext⟩ := mem_entriesFrom he
  unfold Invocation.step at hstep
  split at hstep
  · cases hstep
  · cases hstep
  rename_i x hfetch
  have hbehind : e.next = e.offset + x.size := by
    rw [hnext, lineFor, hfetch]
    rfl
  have hsuccessor : next ∈ x.successors e.offset := by
    split at hstep
    · cases hstep
    · cases hstep
    · rename_i distance f hwork
      cases hstep
      exact Invocation.perform_leads (Invocation.perform_of_work hwork) e.offset
    · rename_i event f hwork
      split at hstep
      · cases hstep
      · cases hstep
        exact Invocation.perform_leads (Invocation.perform_of_work hwork) e.offset
  rw [hbehind]
  obtain hnext | ⟨distance, hx, hnext⟩ := Instruction.successors_cases hsuccessor
  · exact .inl hnext
  · rw [hnext]
    exact .inr (saysTarget he hx inside hfetch)

/-- Every entry foretells what a handler does at its offset. -/
theorem foretells {f : Frame} {r r' : Run σ} (he : e ∈ i.chunk.entries)
    (hbegun : i.beginStep r = (.ok (), r')) : e.Foretells i nested inside f r r' where
  truncated := (Invocation.execute_fault_iff inside hbegun).trans (step_truncated_iff he)
  unknown :=
    (exists_congr fun _ => Invocation.execute_fault_iff inside hbegun).trans (step_unknown_iff he)
  onward next s hstep := by
    refine ⟨?_, next_of_step he hstep⟩
    rw [Invocation.execute_eq, dif_pos inside, hbegun]
    dsimp only
    rw [hstep]

end Entry

end Chunk

/-- The listing, the opcodes and the machine agree on every chunk, whatever its bytes are. The
entries of the listing take the code apart, one at each offset at which an opcode is read and under
its name. A handler that begins an instruction at one of them finds its operands cut off if the
entry says so, finds no instruction if the entry says so, and otherwise goes on at the next entry or
where the entry says that it leads, if it goes on at all. -/
theorem listing_agrees (c : Chunk) : c.Listed ∧
    ∀ e ∈ c.entries, ∀ {σ : Type} [Host σ] (limits : Limits) (base : ℕ)
      (nested : Option (Dispatcher σ)) (inside : e.offset < c.size) (f : Frame) (r r' : Run σ),
      Invocation.beginStep ⟨limits, base, c⟩ r = (.ok (), r') →
        e.Foretells ⟨limits, base, c⟩ nested inside f r r' :=
  ⟨c.listed, fun _ he {_} _ _ _ _ _ _ _ _ hbegun => Chunk.Entry.foretells he hbegun⟩

/-- A jump over a byte that names no instruction, to an instruction that is cut off. -/
def ragged : Chunk where
  name := "ragged"
  code := #[0x51, 0x00, 0x01, 0x07, 0x01]
  constants := #[]
  lines := #[1, 1, 1, 2, 2]

/-- The last entry of the ragged code says that it is cut off, and running it there faults so. -/
theorem listing_agrees_ragged :
    let last : Chunk.Entry := ⟨4, "CONSTANT       <truncated>", 5⟩
    last ∈ ragged.entries ∧ last.SaysTruncated ∧
      (Invocation.execute ⟨{}, 0, ragged⟩ none 4 ⟨#[], lampOff⟩
        ((Machine.new {}).begin EmptyHost.mk)).1 = some (4, .truncatedInstruction) := by
  intro last
  have hlast : last ∈ ragged.entries := by decide +kernel
  have hsays : last.SaysTruncated := by decide +kernel
  have hforetells := (listing_agrees ragged).2 last hlast {} 0 none (by decide) ⟨#[], lampOff⟩
    ((Machine.new {}).begin EmptyHost.mk) _ rfl
  exact ⟨hlast, hsays, hforetells.truncated.2 hsays⟩

end EntityScript
