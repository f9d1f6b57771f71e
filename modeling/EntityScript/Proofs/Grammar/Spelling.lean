import EntityScript.Compile.Level
import EntityScript.Proofs.Grammar.Tree

/-!
# The grammar

Which tokens spell which trees. Expressions come in levels from the loosest, assignment, to the
tightest, the operand with the components behind it. An operator on two values has its own level
on the left and the next tighter one on the right, so such operators group to the left; the logical
operators have the next tighter level on the left and their own on the right. Parentheses make
any expression an operand and leave nothing in the tree.

Two rules concern single words. A minus sign directly before a vector belongs to its first number,
and `args` is no variable but begins the name of an argument.

Nothing here depends on how a source is compiled, and only `Phrase` says how an expression is read.
-/

namespace EntityScript.Grammar

open Compile (Level operatorLevel)

/-- The token that writes an operator. -/
def operatorKind : Operator → Token.Kind
  | .add => .plus
  | .subtract => .minus
  | .multiply => .star
  | .divide => .slash
  | .equal => .equalEqual
  | .notEqual => .bangEqual
  | .greater => .greater
  | .greaterEqual => .greaterEqual
  | .less => .less
  | .lessEqual => .lessEqual

/-- The next tighter level. -/
def tighter : Level → Level
  | .assignment => .or
  | .or => .and
  | .and => .equality
  | .equality => .comparison
  | .comparison => .term
  | .term => .factor
  | .factor => .unary
  | .unary | .call => .call

/-- The tokens that name a variable, or an argument of the event. -/
inductive Name : String → List Token → Prop where
  | plain {t : Token} (kind : t.kind = .identifier) (free : t.lexeme ≠ "args") :
      Name t.lexeme [t]
  | argument {a d t : Token} (akind : a.kind = .identifier) (word : a.lexeme = "args")
      (dkind : d.kind = .dot) (kind : t.kind = .identifier) :
      Name (Arguments.reservedName t.lexeme) [a, d, t]

/-- Whether tokens begin with one of a kind. -/
def Begins (kind : Token.Kind) (ts : List Token) : Prop := ts.head?.map (·.kind) = some kind

/-- The tokens that spell an expression of a level. An expression of a tighter level is one of every
looser level as well. -/
inductive Phrase : Level → Expression → List Token → Prop where
  | number {level : Level} {t : Token} (kind : t.kind = .number) :
      Phrase level (.literal (.number t.lexeme)) [t]
  | vector {level : Level} {t : Token} (kind : t.kind = .vec2) :
      Phrase level (.literal (.vector t.lexeme)) [t]
  | negatedVector {level : Level} {m t : Token} (sign : m.kind = .minus) (kind : t.kind = .vec2) :
      Phrase level (.literal (.negatedVector t.lexeme)) [m, t]
  | text {level : Level} {t : Token} (kind : t.kind = .string) :
      Phrase level (.literal (.text t.lexeme)) [t]
  | yes {level : Level} {t : Token} (kind : t.kind = .trueWord) :
      Phrase level (.literal (.truth true)) [t]
  | no {level : Level} {t : Token} (kind : t.kind = .falseWord) :
      Phrase level (.literal (.truth false)) [t]
  | var {level : Level} {name : String} {ts : List Token} (spelled : Name name ts) :
      Phrase level (.var name) ts
  | group {level : Level} {e : Expression} {l r : Token} {ts : List Token}
      (opening : l.kind = .leftParen) (inner : Phrase .assignment e ts)
      (closing : r.kind = .rightParen) : Phrase level e (l :: (ts ++ [r]))
  | component {level : Level} {e : Expression} {d t : Token} {ts : List Token}
      (operand : Phrase .call e ts) (dot : d.kind = .dot) (kind : t.kind = .identifier) :
      Phrase level (.component e t.lexeme) (ts ++ [d, t])
  | negate {level : Level} {e : Expression} {m : Token} {ts : List Token} (loose : level ≤ .unary)
      (sign : m.kind = .minus) (free : ¬ Begins .vec2 ts) (operand : Phrase .unary e ts) :
      Phrase level (.negate e) (m :: ts)
  | not {level : Level} {e : Expression} {m : Token} {ts : List Token} (loose : level ≤ .unary)
      (sign : m.kind = .bang) (operand : Phrase .unary e ts) : Phrase level (.not e) (m :: ts)
  | binary {level : Level} {op : Operator} {a b : Expression} {o : Token} {ts us : List Token}
      (loose : level ≤ operatorLevel op) (left : Phrase (operatorLevel op) a ts)
      (sign : o.kind = operatorKind op) (right : Phrase (tighter (operatorLevel op)) b us) :
      Phrase level (.binary op a b) (ts ++ o :: us)
  | and {level : Level} {a b : Expression} {o : Token} {ts us : List Token} (loose : level ≤ .and)
      (left : Phrase .equality a ts) (sign : o.kind = .andAnd) (right : Phrase .and b us) :
      Phrase level (.and a b) (ts ++ o :: us)
  | or {level : Level} {a b : Expression} {o : Token} {ts us : List Token} (loose : level ≤ .or)
      (left : Phrase .and a ts) (sign : o.kind = .orOr) (right : Phrase .or b us) :
      Phrase level (.or a b) (ts ++ o :: us)
  | assign {name : String} {e : Expression} {q : Token} {ts us : List Token}
      (target : Name name ts) (sign : q.kind = .equal) (value : Phrase .assignment e us) :
      Phrase .assignment (.assign name e) (ts ++ q :: us)

/-- The tokens of the entity that an event is meant for, if it is meant for one. -/
inductive TargetSpelling : Option Target → List Token → Prop where
  | none : TargetSpelling none []
  | named {c t : Token} (comma : c.kind = .comma) (kind : t.kind = .identifier) :
      TargetSpelling (some (.named t.lexeme)) [c, t]
  | quoted {c t : Token} (comma : c.kind = .comma) (kind : t.kind = .string) :
      TargetSpelling (some (.quoted t.lexeme)) [c, t]

/-- The tokens of the arguments of an event, each behind a comma. -/
inductive ArgumentSpelling : List (String × Expression) → List Token → Prop where
  | nil : ArgumentSpelling [] []
  | cons {c n q : Token} {e : Expression} {ts us : List Token} {args : List (String × Expression)}
      (comma : c.kind = .comma) (name : n.kind = .identifier) (sign : q.kind = .equal)
      (value : Phrase .assignment e ts) (rest : ArgumentSpelling args us) :
      ArgumentSpelling ((n.lexeme, e) :: args) (c :: n :: q :: (ts ++ us))

/-- The tokens of the annotation of a variable, if it has one. -/
inductive AnnotationSpelling : Option String → List Token → Prop where
  | none : AnnotationSpelling none []
  | some {c t : Token} (colon : c.kind = .colon) (kind : t.kind = .identifier) :
      AnnotationSpelling (some t.lexeme) [c, t]

/-- The tokens of what a variable begins with, if that is said. -/
inductive InitialSpelling : Option Expression → List Token → Prop where
  | none : InitialSpelling none []
  | some {e : Expression} {q : Token} {ts : List Token} (sign : q.kind = .equal)
      (value : Phrase .assignment e ts) : InitialSpelling (some e) (q :: ts)

/-- The sites at which a statement tree may be spelled. -/
inductive Site where
  /-- One statement. -/
  | statement
  /-- The statements between the braces of a block. -/
  | body
  /-- A conditional statement, which may stand behind `else` without braces. -/
  | conditional
  /-- What follows the first block of a conditional statement. -/
  | alternative
  deriving DecidableEq, Repr

/-- The tokens that spell a statement at a site. -/
inductive Clause : Site → Statement → List Token → Prop where
  | done : Clause .body .skip []
  | next {first rest : Statement} {ts us : List Token} (head : Clause .statement first ts)
      (tail : Clause .body rest us) : Clause .body (.seq first rest) (ts ++ us)
  | declare {w n z : Token} {type : Option String} {init : Option Expression} {ts us : List Token}
      (word : w.kind = .varWord) (name : n.kind = .identifier)
      (typed : AnnotationSpelling type ts) (initial : InitialSpelling init us)
      (semicolon : z.kind = .semicolon) :
      Clause .statement (.declare n.lexeme type init) (w :: n :: (ts ++ (us ++ [z])))
  | branch {condition : Expression} {whenTrue whenFalse : Statement} {w l r : Token}
      {ts us vs : List Token} (word : w.kind = .ifWord) (test : Phrase .assignment condition ts)
      (opening : l.kind = .leftBrace) (block : Clause .body whenTrue us)
      (closing : r.kind = .rightBrace) (otherwise : Clause .alternative whenFalse vs) :
      Clause .conditional (.branch condition whenTrue whenFalse)
        (w :: (ts ++ l :: (us ++ r :: vs)))
  | conditional {s : Statement} {ts : List Token} (inner : Clause .conditional s ts) :
      Clause .statement s ts
  | nothing : Clause .alternative .skip []
  | elseIf {s : Statement} {w : Token} {ts : List Token} (word : w.kind = .elseWord)
      (inner : Clause .conditional s ts) : Clause .alternative s (w :: ts)
  | elseBlock {s : Statement} {w l r : Token} {ts : List Token} (word : w.kind = .elseWord)
      (opening : l.kind = .leftBrace) (block : Clause .body s ts) (closing : r.kind = .rightBrace) :
      Clause .alternative s (w :: l :: (ts ++ [r]))
  | fire {w n z : Token} (word : w.kind = .fireEvent) (name : n.kind = .identifier)
      (semicolon : z.kind = .semicolon) : Clause .statement (.fire n.lexeme none []) [w, n, z]
  | fireWith {w l n r z : Token} {target : Option Target} {args : List (String × Expression)}
      {ts us : List Token} (word : w.kind = .fireEvent) (opening : l.kind = .leftParen)
      (name : n.kind = .identifier) (goal : TargetSpelling target ts)
      (arguments : ArgumentSpelling args us) (closing : r.kind = .rightParen)
      (semicolon : z.kind = .semicolon) :
      Clause .statement (.fire n.lexeme target args) (w :: l :: n :: (ts ++ (us ++ [r, z])))
  | change {w n z : Token} (word : w.kind = .changeState) (name : n.kind = .identifier)
      (semicolon : z.kind = .semicolon) : Clause .statement (.change n.lexeme) [w, n, z]
  | changeTo {w l n r z : Token} (word : w.kind = .changeState) (opening : l.kind = .leftParen)
      (name : n.kind = .identifier) (closing : r.kind = .rightParen)
      (semicolon : z.kind = .semicolon) : Clause .statement (.change n.lexeme) [w, l, n, r, z]
  | block {s : Statement} {l r : Token} {ts : List Token} (opening : l.kind = .leftBrace)
      (inner : Clause .body s ts) (closing : r.kind = .rightBrace) :
      Clause .statement s (l :: (ts ++ [r]))
  | evaluate {e : Expression} {z : Token} {ts : List Token} (value : Phrase .assignment e ts)
      (semicolon : z.kind = .semicolon) : Clause .statement (.evaluate e) (ts ++ [z])

/-- The tokens that spell handlers. -/
inductive HandlerSpelling : List Handler → List Token → Prop where
  | nil : HandlerSpelling [] []
  | cons {w n l r : Token} {body : Statement} {ts us : List Token} {handlers : List Handler}
      (word : w.kind = .onEvent) (name : n.kind = .identifier) (opening : l.kind = .leftBrace)
      (block : Clause .body body ts) (closing : r.kind = .rightBrace)
      (rest : HandlerSpelling handlers us) :
      HandlerSpelling (⟨n.lexeme, body⟩ :: handlers) (w :: n :: l :: (ts ++ r :: us))

/-- The tokens that spell a state. -/
inductive StateSpelling : State → List Token → Prop where
  | mk {w n l r : Token} {handlers : List Handler} {ts : List Token} (word : w.kind = .state)
      (name : n.kind = .identifier) (opening : l.kind = .leftBrace)
      (inner : HandlerSpelling handlers ts) (closing : r.kind = .rightBrace) :
      StateSpelling ⟨n.lexeme, handlers⟩ (w :: n :: l :: (ts ++ [r]))

/-- The tokens that spell the states of a machine. -/
inductive StatesSpelling : List State → List Token → Prop where
  | nil : StatesSpelling [] []
  | cons {s : State} {states : List State} {ts us : List Token} (head : StateSpelling s ts)
      (tail : StatesSpelling states us) : StatesSpelling (s :: states) (ts ++ us)

/-- The tokens that spell the declarations of a source. -/
inductive FileSpelling : File → List Token → Prop where
  | nil : FileSpelling [] []
  | state {s : State} {f : File} {ts us : List Token} (head : StateSpelling s ts)
      (tail : FileSpelling f us) : FileSpelling (.state s :: f) (ts ++ us)
  | machine {w l r : Token} {states : List State} {f : File} {ts us : List Token}
      (word : w.kind = .stateMachine) (opening : l.kind = .leftBrace)
      (inner : StatesSpelling states ts) (closing : r.kind = .rightBrace)
      (tail : FileSpelling f us) :
      FileSpelling (.machine none states :: f) (w :: l :: (ts ++ r :: us))
  | namedMachine {w n l r : Token} {states : List State} {f : File} {ts us : List Token}
      (word : w.kind = .stateMachine) (name : n.kind = .identifier) (opening : l.kind = .leftBrace)
      (inner : StatesSpelling states ts) (closing : r.kind = .rightBrace)
      (tail : FileSpelling f us) :
      FileSpelling (.machine (some n.lexeme) states :: f) (w :: n :: l :: (ts ++ r :: us))

/-- Tokens up to a place between the handlers of a state. -/
inductive Opened (state : String) : List Token → Prop where
  | mk {w n l : Token} {before ts : List Token} {handlers : List Handler} (word : w.kind = .state)
      (name : n.kind = .identifier) (named : n.lexeme = state) (opening : l.kind = .leftBrace)
      (inner : HandlerSpelling handlers ts) : Opened state (before ++ w :: n :: l :: ts)

/-- The tokens of handlers may be put behind those of others. -/
theorem HandlerSpelling.append {handlers others : List Handler} {ts us : List Token}
    (h : HandlerSpelling handlers ts) (h' : HandlerSpelling others us) :
    HandlerSpelling (handlers ++ others) (ts ++ us) := by
  induction h with
  | nil => exact h'
  | cons word name opening block closing _ ih =>
    simpa using HandlerSpelling.cons word name opening block closing ih

/-- The place behind one more handler is between the handlers of the state as well. -/
theorem Opened.handler {state : String} {before ts : List Token} {w n l r : Token}
    {body : Statement} (h : Opened state before) (word : w.kind = .onEvent)
    (name : n.kind = .identifier) (opening : l.kind = .leftBrace) (block : Clause .body body ts)
    (closing : r.kind = .rightBrace) : Opened state (before ++ w :: n :: l :: (ts ++ [r])) := by
  cases h with
  | mk word' name' named' opening' inner =>
    have hmore := inner.append (.cons word name opening block closing .nil)
    simpa using Opened.mk word' name' named' opening' hmore

/-- A phrase of a tighter level is one of every looser level. -/
theorem Phrase.loosen {level level' : Level} {e : Expression} {ts : List Token}
    (h : Phrase level e ts) (hl : level' ≤ level) : Phrase level' e ts := by
  have trans : ∀ {k : Level}, level ≤ k → level' ≤ k := fun hk => Nat.le_trans hl hk
  cases h with
  | number kind => exact .number kind
  | vector kind => exact .vector kind
  | negatedVector sign kind => exact .negatedVector sign kind
  | text kind => exact .text kind
  | yes kind => exact .yes kind
  | no kind => exact .no kind
  | var spelled => exact .var spelled
  | group opening inner closing => exact .group opening inner closing
  | component operand dot kind => exact .component operand dot kind
  | negate loose sign free operand => exact .negate (trans loose) sign free operand
  | not loose sign operand => exact .not (trans loose) sign operand
  | binary loose left sign right => exact .binary (trans loose) left sign right
  | and loose left sign right => exact .and (trans loose) left sign right
  | or loose left sign right => exact .or (trans loose) left sign right
  | assign target sign value =>
    have : level' = .assignment := by
      cases level' <;> first | rfl | exact absurd hl (by decide)
    subst this
    exact .assign target sign value

/-- Every token is one that was readable. -/
def AllReadable (ts : List Token) : Prop := ∀ t ∈ ts, t.kind ≠ .error

/-- No tokens are all readable. -/
@[simp] theorem allReadable_nil : AllReadable [] := by simp [AllReadable]

/-- Tokens are readable if the first one and the rest are. -/
@[simp] theorem allReadable_cons (t : Token) (ts : List Token) :
    AllReadable (t :: ts) ↔ t.kind ≠ .error ∧ AllReadable ts := List.forall_mem_cons

/-- Tokens are readable if those of both parts are. -/
@[simp] theorem allReadable_append (ts us : List Token) :
    AllReadable (ts ++ us) ↔ AllReadable ts ∧ AllReadable us := List.forall_mem_append

/-- The tokens of a name are readable. -/
theorem Name.readable {name : String} {ts : List Token} (h : Name name ts) : AllReadable ts := by
  cases h <;> simp [*]

/-- No operator is written as an unreadable token. -/
theorem operatorKind_ne_error (op : Operator) : operatorKind op ≠ .error := by
  cases op <;> decide

/-- The tokens of an expression are readable. -/
theorem Phrase.readable {level : Level} {e : Expression} {ts : List Token} (h : Phrase level e ts) :
    AllReadable ts := by
  induction h with
  | var spelled => exact spelled.readable
  | assign target _ _ ih =>
    have := target.readable
    simp [*]
  | binary => simp [*, operatorKind_ne_error]
  | number | vector | negatedVector | text | yes | no | group | component | negate | not | and
  | or => simp [*]

/-- The tokens of a target are readable. -/
theorem TargetSpelling.readable {target : Option Target} {ts : List Token}
    (h : TargetSpelling target ts) : AllReadable ts := by
  cases h <;> simp [*]

/-- The tokens of arguments are readable. -/
theorem ArgumentSpelling.readable {args : List (String × Expression)} {ts : List Token}
    (h : ArgumentSpelling args ts) : AllReadable ts := by
  induction h with
  | nil => simp
  | cons _ _ _ value _ ih =>
    have := value.readable
    simp [*]

/-- The tokens of an annotation are readable. -/
theorem AnnotationSpelling.readable {type : Option String} {ts : List Token}
    (h : AnnotationSpelling type ts) : AllReadable ts := by
  cases h <;> simp [*]

/-- The tokens of what a variable begins with are readable. -/
theorem InitialSpelling.readable {init : Option Expression} {ts : List Token}
    (h : InitialSpelling init ts) : AllReadable ts := by
  cases h with
  | none => simp
  | some sign value =>
    have := value.readable
    simp [*]

/-- The tokens of a statement are readable. -/
theorem Clause.readable {site : Site} {s : Statement} {ts : List Token} (h : Clause site s ts) :
    AllReadable ts := by
  induction h with
  | declare _ _ annotation initial _ =>
    have := annotation.readable
    have := initial.readable
    simp [*]
  | branch _ test _ _ _ _ _ _ =>
    have := test.readable
    simp [*]
  | fireWith _ _ _ goal arguments _ _ =>
    have := goal.readable
    have := arguments.readable
    simp [*]
  | evaluate value _ =>
    have := value.readable
    simp [*]
  | done | next | conditional | nothing | elseIf | elseBlock | fire | change | changeTo | block =>
    simp [*]

/-- A declaration may stand in front of others. -/
theorem FileSpelling.cons {d : Declaration} {f : File} {ts us : List Token}
    (hd : FileSpelling [d] ts) (hf : FileSpelling f us) : FileSpelling (d :: f) (ts ++ us) := by
  cases hd with
  | state head tail =>
    cases tail
    simpa using FileSpelling.state head hf
  | machine word opening inner closing tail =>
    cases tail
    simpa using FileSpelling.machine word opening inner closing hf
  | namedMachine word name opening inner closing tail =>
    cases tail
    simpa using FileSpelling.namedMachine word name opening inner closing hf

end EntityScript.Grammar
