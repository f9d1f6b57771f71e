import EntityScript.Proofs.Bytecode.Compiled
import EntityScript.Proofs.Grammar.Excerpt

/-!
# Handlers compile independently of each other

The code of a handler is the code of its tree, so nothing else in the source has a part in it. A
source that compiles has one handler for each block that begins with `OnEvent`; and when all other
blocks are taken out, the handler that is left compiles to the same bytes with the same constants.
-/

namespace EntityScript

open Grammar Compile

/-- Two chunks of one handler are the same up to the lines of the code. -/
theorem Compile.Assembled.unique {name : String} {body : Statement} {chunk chunk' : Chunk}
    (h : Assembled name body chunk) (h' : Assembled name body chunk') :
    chunk'.name = chunk.name ∧ chunk'.code = chunk.code ∧ chunk'.constants = chunk.constants :=
  ⟨h'.name.trans h.name.symm, Array.toList_inj.1 (h'.code.trans h.code.symm),
    Array.toList_inj.1 (h'.constants.trans h.constants.symm)⟩

/-- A handler of a source, compiled in any other source that declares the same states and only this
handler. -/
theorem Represents.alone {f f' : File} {script : Script} (h : Represents f script)
    (hvalid : Valid f) (hstates : f'.states.map (·.name) = f.states.map (·.name))
    {x : String × Handler} (hx : x ∈ f.handlers) (hf' : f'.handlers = [x]) {chunk : Chunk}
    (hchunk : Assembled (Outline.label x) x.2.body chunk) (file' : String) {source' : String}
    (hspelling : FileSpelling f' (Token.words source')) :
    ∃ alone chunk', compile file' source' = .ok alone ∧ alone.states = script.states ∧
      alone.handlerList = [(x.1, x.2.event, chunk')] ∧ chunk'.name = chunk.name ∧
      chunk'.code = chunk.code ∧ chunk'.constants = chunk.constants := by
  have hvalid' := hvalid.of_handler hstates hx hf'
  obtain ⟨alone, halone, hrepresents⟩ := compile_of_valid file' hspelling hvalid'
  obtain ⟨chunk', hlist, hchunk'⟩ := hrepresents.handlerList_of_single hvalid' hf'
  refine ⟨alone, chunk', halone, ?_, hlist, hchunk.unique hchunk'⟩
  rw [hrepresents.states, h.states, hstates]

/-- Some tokens of a source, laid out on one line, are read back. -/
theorem words_of_sublist {source : String} {ts : List Token} (h : ts.Sublist (Token.words source))
    (hreadable : AllReadable ts) :
    Token.words (Token.laidOut ' ' (ts.map onFirstLine)) = ts.map onFirstLine := by
  refine words_spaced fun t ht => ?_
  obtain ⟨u, hu, rfl⟩ := List.mem_map.1 ht
  have hmem := h.subset hu
  exact ⟨Token.stands_of_mem_words hmem (by decide) fun herror => absurd herror (hreadable u hu),
    (Token.mem_words hmem).1, rfl⟩

/-- Handlers compile independently of each other. A source that compiles spells some declarations,
and its script has exactly one handler for each of their blocks, of which there are as many as
words `OnEvent`, under its state and event. Its chunk is called by both. Taking all other blocks out
leaves a source of the remaining tokens; and every source that declares the same states in the same
order with this handler only, compiles to a script with this one handler, which has the same code
and the same constants. -/
theorem handlers_compile_separately {file source : String} {script : Script}
    (h : compile file source = .ok script) :
    ∃ f : File, FileSpelling f (Token.words source) ∧
      script.states = f.states.map (·.name) ∧
      script.handlerKeys.Perm (f.handlers.map fun x => (x.1, x.2.event)) ∧
      script.handlerCount = occurrences .onEvent (Token.words source) ∧
      ∀ x ∈ f.handlers, ∃ chunk, script.handler? x.1 x.2.event = some chunk ∧
        chunk.name = x.1 ++ "." ++ x.2.event ∧
        (∃ ts : List Token, ts.Sublist (Token.words source) ∧
          Token.words (Token.laidOut ' ' (ts.map onFirstLine)) = ts.map onFirstLine ∧
          FileSpelling (f.only (x.1, x.2.event)) (ts.map onFirstLine)) ∧
        (f.only (x.1, x.2.event)).states.map (·.name) = f.states.map (·.name) ∧
        (f.only (x.1, x.2.event)).handlers = [x] ∧
        ∀ (file' source' : String) (f' : File), FileSpelling f' (Token.words source') →
          f'.states.map (·.name) = f.states.map (·.name) → f'.handlers = [x] →
          ∃ alone chunk', compile file' source' = .ok alone ∧ alone.states = script.states ∧
            alone.handlerList = [(x.1, x.2.event, chunk')] ∧ chunk'.name = chunk.name ∧
            chunk'.code = chunk.code ∧ chunk'.constants = chunk.constants := by
  obtain ⟨f, hspelling, hvalid, hrepresents⟩ := compile_represents h
  have hkeys := hrepresents.perm_handlerKeys hvalid
  have hcount : script.handlerCount = f.handlers.length := by
    have hlength := hkeys.length_eq
    rwa [Script.handlerKeys, List.length_map, List.length_map] at hlength
  refine ⟨f, hspelling, hrepresents.states, hkeys, ?_, fun x hx => ?_⟩
  · rw [hcount, hspelling.occurrences_eq]
  · obtain ⟨chunk, hchunk, hassembled⟩ := hrepresents.found x hx
    obtain ⟨ts, hts, honly⟩ := hspelling.exists_only (x.1, x.2.event)
    exact ⟨chunk, hchunk, hassembled.name,
      ⟨ts, hts, words_of_sublist hts honly.readable, honly.onFirstLine⟩,
      f.names_only _, File.handlers_only_of_mem hvalid.handlers hx,
      fun file' source' f' hspelling' hstates hf' =>
        hrepresents.alone hvalid hstates hx hf' hassembled file' hspelling'⟩

/-- A lamp that is pressed and held. -/
def heldLampSource : String :=
  "State off { OnEvent press { ChangeState on; } OnEvent hold { time = time + 1; } } State on { }"

/-- Both handlers of the lamp are there, and each is what it is alone. -/
theorem handlers_compile_separately_lamp :
    ∃ (script : Script) (f : File), compile "lamp" heldLampSource = .ok script ∧
      FileSpelling f (Token.words heldLampSource) ∧ script.handlerCount = 2 ∧
      ∀ x ∈ f.handlers, ∃ chunk, script.handler? x.1 x.2.event = some chunk ∧
        ∀ (file' source' : String) (f' : File), FileSpelling f' (Token.words source') →
          f'.states.map (·.name) = f.states.map (·.name) → f'.handlers = [x] →
          ∃ alone chunk', compile file' source' = .ok alone ∧
            alone.handlerList = [(x.1, x.2.event, chunk')] ∧ chunk'.code = chunk.code ∧
            chunk'.constants = chunk.constants := by
  have hsome : (compile "lamp" heldLampSource).toOption.isSome = true := by decide +kernel
  have htwo : occurrences .onEvent (Token.words heldLampSource) = 2 := by decide +kernel
  have hscript := compile_eq_getD hsome
  obtain ⟨f, hspelling, -, -, hcount, hseparate⟩ := handlers_compile_separately hscript
  refine ⟨_, f, hscript, hspelling, hcount.trans htwo, fun x hx => ?_⟩
  obtain ⟨chunk, hchunk, -, -, -, -, halone⟩ := hseparate x hx
  refine ⟨chunk, hchunk, fun file' source' f' hspelling' hstates hf' => ?_⟩
  obtain ⟨alone, chunk', hcompile, -, hlist, -, hcode, hconstants⟩ :=
    halone file' source' f' hspelling' hstates hf'
  exact ⟨alone, chunk', hcompile, hlist, hcode, hconstants⟩

end EntityScript
