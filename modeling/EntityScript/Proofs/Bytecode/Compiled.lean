import EntityScript.Machine.Context
import EntityScript.Proofs.Bytecode.LaidOut
import EntityScript.Proofs.Compile.Acceptance
import EntityScript.Proofs.Table
import EntityScript.World

/-!
# Chunks of compiled scripts

Every chunk that the compiler makes holds the code of a handler and has a layout, and so it is well
formed.
-/

namespace EntityScript

open Grammar Compile

/-- A script is what some source compiles to. -/
def Script.Compiled (script : Script) : Prop := ∃ file source, compile file source = .ok script

namespace Compile.Assembled

variable {name : String} {body : Statement} {chunk : Chunk}

/-- An assembled chunk holds the code of its body and the closing return. -/
theorem holds (h : Assembled name body chunk) : Holds chunk 0 (body.code ++ [.ret]) where
  bytes := ⟨[], [], by rw [h.code, h.constants]; simp, rfl⟩
  room := h.constants ▸ h.room
  pooled := h.constants ▸ h.pooled.append (by simp [Pooled, Symbolic.constant?])
  fits := by
    intro i hi
    rcases List.mem_append.1 hi with hi | hi
    · exact h.fits i hi
    · obtain rfl := List.mem_singleton.1 hi
      trivial

/-- The code of an assembled chunk has the size of its body and of the closing return. -/
theorem size (h : Assembled name body chunk) : chunk.size = codeSize (body.code ++ [.ret]) := by
  rw [Chunk.size, ← Array.length_toList, h.code, length_bytes]

end Compile.Assembled

/-- The handlers of a script are listed exactly as they are found in it. -/
theorem Script.mem_handlerList {script : Script} {state event : String} {chunk : Chunk} :
    (state, event, chunk) ∈ script.handlerList ↔ script.handler? state event = some chunk := by
  unfold handlerList handler?
  simp only [List.mem_flatMap, List.mem_map, Prod.mk.injEq, Option.bind_eq_some_iff]
  constructor
  · rintro ⟨⟨_, events⟩, hevents, ⟨_, _⟩, hchunk, rfl, rfl, rfl⟩
    exact ⟨events, Table.mem_entries_iff.1 hevents, Table.mem_entries_iff.1 hchunk⟩
  · rintro ⟨events, hevents, hchunk⟩
    exact ⟨(state, events), Table.mem_entries_iff.2 hevents, (event, chunk),
      Table.mem_entries_iff.2 hchunk, rfl, rfl, rfl⟩

/-- The state and the event of every handler that a script lists. -/
def Script.handlerKeys (script : Script) : List (String × String) :=
  script.handlerList.map fun h => (h.1, h.2.1)

/-- No event of a state is listed twice. -/
theorem Script.nodup_handlerKeys (script : Script) : script.handlerKeys.Nodup := by
  have hinner (state : String) (events : Table String Chunk) :
      (events.entries.map fun e => (state, e.1)).Nodup := by
    refine List.pairwise_map.2 ((Table.pairwise_ne_of_ascending events.ascending).imp ?_)
    rintro a b hne heq
    exact hne (Prod.mk.inj heq).2
  have hkeys : script.handlerKeys
      = script.handlers.entries.flatMap fun entry =>
          entry.2.entries.map fun e => (entry.1, e.1) := by
    simp [handlerKeys, handlerList, List.map_flatMap, Function.comp_def]
  rw [hkeys, List.nodup_flatMap]
  refine ⟨fun entry _ => hinner entry.1 entry.2, ?_⟩
  refine (Table.pairwise_ne_of_ascending script.handlers.ascending).imp fun hne => ?_
  rintro key hleft hright
  obtain ⟨e, -, rfl⟩ := List.mem_map.1 hleft
  obtain ⟨e', -, heq⟩ := List.mem_map.1 hright
  exact hne (Prod.mk.inj heq).1.symm

/-- The keys of a script are the pairs of state and event that have a handler. -/
theorem Script.mem_handlerKeys {script : Script} {state event : String} :
    (state, event) ∈ script.handlerKeys ↔ ∃ chunk, script.handler? state event = some chunk := by
  unfold handlerKeys
  rw [List.mem_map]
  constructor
  · rintro ⟨⟨_, _, chunk⟩, hmem, heq⟩
    cases heq
    exact ⟨chunk, mem_handlerList.1 hmem⟩
  · rintro ⟨chunk, hchunk⟩
    exact ⟨(state, event, chunk), mem_handlerList.2 hchunk, rfl⟩

/-- A script lists one handler for each that its source declares. -/
theorem Represents.perm_handlerKeys {f : File} {script : Script} (h : Represents f script)
    (hvalid : Valid f) : script.handlerKeys.Perm (f.handlers.map Outline.key) := by
  refine (List.perm_ext_iff_of_nodup script.nodup_handlerKeys hvalid.handlers).2 ?_
  rintro ⟨state, event⟩
  rw [Script.mem_handlerKeys, List.mem_map]
  constructor
  · rintro ⟨chunk, hchunk⟩
    obtain ⟨x, hx, hkey, -⟩ := h.origin state event chunk hchunk
    exact ⟨x, hx, hkey⟩
  · rintro ⟨x, hx, hkey⟩
    obtain ⟨chunk, hchunk, -⟩ := h.found x hx
    cases hkey
    exact ⟨chunk, hchunk⟩

/-- The script of a source with one handler lists the chunk of that handler, and nothing else. -/
theorem Represents.handlerList_of_single {f : File} {script : Script} (h : Represents f script)
    (hvalid : Valid f) {x : String × Handler} (hx : f.handlers = [x]) :
    ∃ chunk, script.handlerList = [(x.1, x.2.event, chunk)] ∧
      Assembled (Outline.label x) x.2.body chunk := by
  obtain ⟨chunk, hchunk, hassembled⟩ := h.found x (by rw [hx]; exact List.mem_singleton_self x)
  have hkeys := h.perm_handlerKeys hvalid
  rw [hx, List.map_singleton] at hkeys
  obtain ⟨entry, hentry, -⟩ := List.map_eq_singleton_iff.1 (List.perm_singleton.1 hkeys)
  have hmem := Script.mem_handlerList.2 hchunk
  rw [hentry] at hmem
  exact ⟨chunk, by rw [hentry, List.mem_singleton.1 hmem], hassembled⟩

/-- Every chunk of a compiled script has a layout. -/
theorem Script.Compiled.laidOut {script : Script} (h : script.Compiled) {state event : String}
    {chunk : Chunk} (hchunk : script.handler? state event = some chunk) :
    ∃ l, LaidOut script.states l chunk := by
  obtain ⟨file, source, hcompile⟩ := h
  obtain ⟨f, -, hvalid, hrepresents⟩ := compile_represents hcompile
  obtain ⟨x, hx, -, hassembled⟩ := hrepresents.origin state event chunk hchunk
  refine LaidOut.of_flows x.2.body.flows hassembled.holds hassembled.size ?_
  refine x.2.body.names (hvalid.legal x hx) fun t ht => ?_
  rw [hrepresents.states]
  exact hvalid.targets t (List.mem_flatMap.2 ⟨x, hx, ht⟩)

/-- A source that compiles at all compiles to the script that is read out of the answer. -/
theorem compile_eq_getD {file source : String}
    (h : (compile file source).toOption.isSome = true) :
    compile file source = .ok ((compile file source).toOption.getD default) := by
  cases heq : compile file source with
  | ok script => rfl
  | error problems =>
    rw [heq] at h
    cases h

/-- A lamp that is switched on when it is pressed. -/
def lampSource : String := "State off { OnEvent press { ChangeState on; } } State on { }"

/-- What the lamp compiles to. -/
def lampScript : Script := (compile "lamp" lampSource).toOption.getD default

/-- The source of the lamp compiles to its script. -/
theorem lampSource_compiles : compile "lamp" lampSource = .ok lampScript := by
  have hsome : (compile "lamp" lampSource).toOption.isSome = true := by decide +kernel
  exact compile_eq_getD hsome

/-- A lamp that is off. -/
def lampOff : Context := ⟨⟨0, lampScript⟩, "off", .empty, none⟩

/-- A switch that presses a bulb three times at most if it is armed, and says each time which one it
is. -/
def switchSource : String :=
  "State on { OnEvent press { if armed && n < 3 { n = n + 1; FireEvent(press, bulb, by = n); } } }"

/-- What the switch compiles to. -/
def switchScript : Script := (compile "switch" switchSource).toOption.getD default

/-- The source of the switch compiles. -/
theorem switchSource_compiles : compile "switch" switchSource = .ok switchScript := by
  have hsome : (compile "switch" switchSource).toOption.isSome = true := by decide +kernel
  exact compile_eq_getD hsome

/-- A switch that is armed. -/
def switchOn : Context := ⟨⟨0, switchScript⟩, "on", .ofList [("armed", .bool true)], none⟩

/-- A bulb that is lit when it is pressed. At the first press it divides by zero then. -/
def bulbSource : String :=
  "State off { OnEvent press { ChangeState lit; level = 1 / (args.by - 1); } } State lit { }"

/-- What the bulb compiles to. -/
def bulbScript : Script := (compile "bulb" bulbSource).toOption.getD default

/-- The source of the bulb compiles. -/
theorem bulbSource_compiles : compile "bulb" bulbSource = .ok bulbScript := by
  have hsome : (compile "bulb" bulbSource).toOption.isSome = true := by decide +kernel
  exact compile_eq_getD hsome

/-- A world with a bulb that is off. -/
def room : World := (World.empty.spawnWith "bulb" fun id => ⟨⟨1, bulbScript⟩, "off", .empty, id⟩).2

end EntityScript
