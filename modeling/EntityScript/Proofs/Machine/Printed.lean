import EntityScript.Proofs.Compile.Rendered
import EntityScript.Proofs.Grammar.Printed
import EntityScript.Proofs.Machine.Binding
import EntityScript.Proofs.Machine.Simulation

/-!
# Printed values are restored

A source that assigns a value to a variable, with the value as it is printed, compiles, and running
it in a fresh context gives the variable that value. Numbers come back bit for bit: the digits that
a number is printed with are read as the number without its sign, and where the sign does not belong
to the literal, the code negates it.

Only texts can be lost. They are printed without escapes, so a quote ends the string too early, a
line end leaves it open, and a backslash takes the character behind it for an escape.
-/

namespace EntityScript

open Grammar Compile

/-- The source with one handler that assigns what a text says to the variable `r`. The text stands
directly before the semicolon. -/
def assignmentSource (state event text : String) : String :=
  Token.laidOut ' ' [mark .state, word state, mark .leftBrace, mark .onEvent, word event,
      mark .leftBrace, word "r", mark .equal]
    ++ text ++ Token.laidOut ' ' [mark .semicolon, mark .rightBrace, mark .rightBrace]

example : assignmentSource "on" "press" (Value.vec2 (-.zero) (.ofNat 3)).text
    = "State on \x7b OnEvent press \x7b r = -0,3; \x7d \x7d " := by
  decide +kernel

variable {v : Value}

/-- The tokens of the source. The value is read as its own tokens. -/
theorem words_assignmentSource {state event : String} (hstate : Written (word state))
    (hevent : Written (word event)) (hv : v.Printable) :
    Token.words (assignmentSource state event v.text) = handlerTokens state event
      ((word "r" :: mark .equal :: v.tokens) ++ [mark .semicolon]) := by
  have hr : Written (word "r") := by decide +kernel
  have hopening : ∀ t ∈ [mark .state, word state, mark .leftBrace, mark .onEvent, word event,
      mark .leftBrace, word "r", mark .equal], Spaced t := by
    simp only [List.forall_mem_cons]
    exact ⟨spaced_mark rfl, spaced_word hstate, spaced_mark rfl, spaced_mark rfl,
      spaced_word hevent, spaced_mark rfl, spaced_word hr, spaced_mark rfl, List.forall_mem_nil _⟩
  have hclosing : ∀ t ∈ [mark .semicolon, mark .rightBrace, mark .rightBrace], Spaced t := by
    simp only [List.forall_mem_cons]
    exact ⟨spaced_mark rfl, spaced_mark rfl, spaced_mark rfl, List.forall_mem_nil _⟩
  have hend := Token.Row.laidOut_append (fun t ht => (hclosing t ht).row) .nil
  rw [Token.toList_laidOut_cons, List.append_nil] at hend
  have hrow := Token.Row.laidOut_append (fun t ht => (hopening t ht).row) (Value.row_text hv hend)
  refine Token.Row.words ?_
  rw [assignmentSource, String.toList_append, String.toList_append, List.append_assoc,
    Token.toList_laidOut_cons ' ' (mark .semicolon), handlerTokens, List.append_assoc]
  exact hrow

/-- The source compiles to the handler that evaluates the assignment. -/
theorem compile_assignmentSource (file : String) {state event : String}
    (hstate : Written (word state)) (hevent : Written (word event)) (hv : v.Printable) :
    ∃ script, compile file (assignmentSource state event v.text) = .ok script ∧
      Represents (expressionFile state event (.assign "r" v.expression)) script := by
  refine compile_of_words file (words_assignmentSource hstate hevent hv) ?_
    (.assign (.plain (t := word "r") rfl (by decide)) rfl v.phrase_tokens)
  obtain ⟨l, hlegal, hexpression⟩ := Value.expression_cases hv
  obtain ⟨he, -⟩ | ⟨he, -⟩ := hexpression <;>
  · rw [he]
    refine valid_expressionFile hlegal ?_ ?_
    · refine (List.dedup_sublist _).length_le.trans ?_
      simp [Expression.constants, Chunk.maxConstants]
    · simp [Expression.code, Symbolic.Fits]

namespace Invocation

variable {σ : Type} [Host σ] {i : Invocation}

/-- The code of the expression puts the value on the stack. One place is enough for it. -/
theorem execute_expression (nested : Option (Dispatcher σ)) (hsteps : i.limits.steps = none)
    (hroom : i.base < i.limits.stackSize) (hv : v.Printable) {xs : List Symbolic}
    (h : Holds i.chunk 0 (v.expression.code ++ xs)) (c : Context) (r : Run σ) :
    ∃ count, i.execute nested 0 ⟨#[], c⟩ r
      = i.execute nested (codeSize v.expression.code) ⟨#[v], c⟩ (r.after count) := by
  have hempty : i.base + (#[] : Array Value).size < i.limits.stackSize := hroom
  obtain ⟨l, -, hexpression⟩ := Value.expression_cases hv
  obtain ⟨he, hvalue⟩ | ⟨he, hvalue⟩ := hexpression <;> rw [he] at h ⊢
  · refine ⟨1, ?_⟩
    rw [execute_constant hsteps h.left hempty, hvalue]
    rfl
  · have hnegate : Holds i.chunk (0 + 2) (.negate :: xs) := Holds.tail h
    refine ⟨1 + 1, ?_⟩
    rw [execute_constant hsteps h.left hempty, execute_negate hsteps hnegate hempty hvalue]
    rfl

/-- Running the code of the handler assigns the value. -/
theorem run_assignment (nested : Option (Dispatcher σ)) (hsteps : i.limits.steps = none)
    (hroom : i.base < i.limits.stackSize) (hv : v.Printable) {name : String}
    (h : Assembled name (.seq (.evaluate (.assign "r" v.expression)) .skip) i.chunk)
    (c : Context) (r : Run σ) : ∃ r', i.run nested c r = ⟨.ok (), c.set "r" v, r'⟩ := by
  have hholds : Holds i.chunk 0 (v.expression.code ++ [.setVariable "r", .pop, .ret]) := by
    simpa [Statement.code, Expression.code] using h.holds
  obtain ⟨count, hexecute⟩ := execute_expression nested hsteps hroom hv hholds c r
  have hset := hholds.right
  rw [Nat.zero_add] at hset
  have hpop : Holds i.chunk (codeSize v.expression.code + 2) [.pop, .ret] := hset.tail
  have hret : Holds i.chunk (codeSize v.expression.code + 2 + 1) [.ret] := hpop.tail
  have hpush : (#[v] : Array Value) = #[].push v := rfl
  rw [hpush, execute_setVariable hsteps hset, execute_pop hsteps hpop, execute_held hsteps hret]
    at hexecute
  refine ⟨(((r.after count).after 1).after 1).after 1, ?_⟩
  rw [run, hexecute]
  rfl

end Invocation

/-- In a context without variables an assignment leaves one, whatever the arguments are. -/
theorem Context.get?_assigned {c : Context} (hc : ∀ name, c.get? name = none) (args : Arguments)
    (v : Value) (name : String) :
    (((c.bindArguments args).set "r" v).restoreArguments c.bound).get? name
      = if name = "r" then some v else none := by
  have hfree : Arguments.isReserved "r" = false := by decide
  rw [get?_restoreArguments]
  by_cases hname : name = "r"
  · subst hname
    rw [hfree, if_neg Bool.false_ne_true, if_pos rfl]
    exact Table.get?_insert_self _ _ _
  · rw [if_neg hname]
    split
    · exact hc name
    · rename_i hreserved
      have hsame := c.sameApart_bindArguments args name (Bool.eq_false_iff.2 hreserved)
      exact (Table.get?_insert_of_ne _ hname _).trans (hsame.trans (hc name))

/-- Values go through printing, compiling and running as they are: a source that assigns a value as
it is printed compiles, and in a fresh context, whoever owns it, its handler gives the variable that
value, bit for bit, and no other variable any. Numbers have to be finite, and texts free of what
would have to be escaped in them. -/
theorem printed_values_restored (file : String) {v : Value} (hv : v.Printable)
    {state event : String} (hstate : Written (word state)) (hevent : Written (word event)) :
    ∃ script, compile file (assignmentSource state event v.text) = .ok script ∧
      ∀ serial, ∃ c, Context.new ⟨serial, script⟩ state = .ok c ∧
        ∀ {σ : Type} [Host σ] (m : Machine) (owner : Option EntityId) (args : Arguments) (host : σ),
          m.limits.steps = none → 0 < m.limits.stackSize →
          (m.dispatch { c with owner } event args host).result = .ok .handled ∧
            ∀ name, (m.dispatch { c with owner } event args host).context.get? name
              = if name = "r" then some v else none := by
  obtain ⟨script, hscript, hrepresents⟩ := compile_assignmentSource file hstate hevent hv
  refine ⟨script, hscript, fun serial => ?_⟩
  have hknown : script.hasState state = true := by
    rw [Script.hasState, hrepresents.states]
    simp [expressionFile, File.states, Declaration.states]
  obtain ⟨chunk, hchunk, hassembled⟩ := hrepresents.found
    (state, ⟨event, .seq (.evaluate (.assign "r" v.expression)) .skip⟩)
    (by simp [expressionFile, File.handlers, File.states, Declaration.states, State.entries])
  refine ⟨⟨⟨serial, script⟩, state, .empty, none⟩, if_pos hknown, ?_⟩
  intro σ _ m owner args host hsteps hroom
  obtain ⟨r, hrun⟩ := Invocation.run_assignment (i := ⟨m.limits, 0, chunk⟩)
    (outermostDispatcher m.limits) hsteps hroom hv hassembled
    (Context.bindArguments ⟨⟨serial, script⟩, state, .empty, owner⟩ args) (m.begin host)
  rw [Machine.dispatch, dispatchWith, hchunk]
  dsimp only
  rw [hrun]
  exact ⟨rfl, Context.get?_assigned (fun _ => rfl) args v⟩

/-- A vector with a negative zero and a negative number. -/
theorem printed_values_restored_vector :
    ((Value.vec2 (-.zero) (-.ofNat 3)).Printable ∧ Written (word "on") ∧ Written (word "press")) ∧
    ∃ script c, compile "lamp"
        (assignmentSource "on" "press" (Value.vec2 (-.zero) (-.ofNat 3)).text) = .ok script ∧
      Context.new ⟨0, script⟩ "on" = .ok c ∧
      ((Machine.new {}).dispatch { c with owner := some 1 } "press" .empty
        EmptyHost.mk).context.get? "r" = some (.vec2 (-.zero) (-.ofNat 3)) := by
  have hv : (Value.vec2 (-.zero) (-.ofNat 3)).Printable := by decide +kernel
  have hstate : Written (word "on") := by decide +kernel
  have hevent : Written (word "press") := by decide +kernel
  obtain ⟨script, hscript, hruns⟩ := printed_values_restored "lamp" hv hstate hevent
  obtain ⟨c, hc, hdispatch⟩ := hruns 0
  exact ⟨⟨hv, hstate, hevent⟩, script, c, hscript, hc,
    (hdispatch (Machine.new {}) (some 1) .empty EmptyHost.mk rfl (by decide)).2 "r"⟩

/-- The source that assigns the path `C:\new`, printed as a value. -/
def pathSource : String := assignmentSource "on" "press" (Value.string "C:\\new").text

/-- What it compiles to. -/
def pathScript : Script := (compile "path" pathSource).toOption.getD default

/-- A text without an escape for its quotes does not compile, and one with a backslash can come back
as another: in the path, `\n` is read as the end of a line. -/
theorem printed_text_lost :
    (compile "greeting" (assignmentSource "on" "press" (Value.string "say \"hi\"").text)).toOption
      = none ∧
    compile "path" pathSource = .ok pathScript ∧
      Context.new ⟨0, pathScript⟩ "on" = .ok ⟨⟨0, pathScript⟩, "on", .empty, none⟩ ∧
      ((Machine.new {}).dispatch ⟨⟨0, pathScript⟩, "on", .empty, none⟩ "press" .empty
        EmptyHost.mk).context.get? "r" = some (.string "C:\new") ∧
      Value.string "C:\new" ≠ .string "C:\\new" := by
  have hsome : (compile "path" pathSource).toOption.isSome = true := by decide +kernel
  have hknown : pathScript.hasState "on" = true := by decide +kernel
  exact ⟨by decide +kernel, compile_eq_getD hsome, if_pos hknown, by decide +kernel,
    by decide⟩

end EntityScript
