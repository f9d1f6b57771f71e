import EntityScript.Proofs.Grammar.Assembly
import Mathlib.Data.List.Chain

/-!
# The operands that code works on

What lies on the operand stack before each instruction of the code of a tree. A layout gives every
instruction the shape of the operands that it finds. It is valid if each instruction finds what it
takes, and leaves what is written wherever it may go on. Shapes say more than heights: the name of
an argument and the name of a target are texts.

Jumps lead forward, so that a layout is checked from its end. `Flows` says that code has a valid
layout between two shapes; it is closed under the ways in which trees put code together, which is
`Expression.flows` and `Statement.flows`.
-/

namespace EntityScript.Grammar

/-- What is known of an operand. -/
inductive Cell where
  | value
  | text
  deriving DecidableEq, Repr

/-- What is known of the operands of a handler, the topmost first. -/
abbrev Shape := List Cell

/-- So many arguments of an event on top of other operands, each with its name below its value. -/
def argumentShape : ℕ → Shape → Shape
  | 0, a => a
  | count + 1, a => .value :: .text :: argumentShape count a

/-- A value on top of a name is one more argument, above or below the others. -/
theorem argumentShape_cons (count : ℕ) (a : Shape) :
    argumentShape count (.value :: .text :: a) = .value :: .text :: argumentShape count a := by
  induction count with
  | zero => rfl
  | succ count ih => rw [argumentShape, ih, argumentShape]

/-- Each argument takes two operands. -/
theorem length_argumentShape (count : ℕ) (a : Shape) :
    (argumentShape count a).length = 2 * count + a.length := by
  induction count with
  | zero => simp [argumentShape]
  | succ count ih =>
    simp only [argumentShape, List.length_cons, ih]
    omega

/-- The name of a target, if an event has one. -/
def targetShape (targeted : Bool) : Shape := if targeted then [.text] else []

namespace Symbolic

/-- Whether an instruction is a jump. -/
def isJump : Symbolic → Bool
  | jump _ | jumpIfFalse _ => true
  | _ => false

/-- How many bytes may be passed over behind an instruction. -/
def exits : Symbolic → List ℕ
  | jump distance => [distance]
  | jumpIfFalse distance => [0, distance]
  | ret => []
  | _ => [0]

/-- An instruction takes operands of one shape to another. -/
inductive Moves : Symbolic → Shape → Shape → Prop
  | constant (v : Value) (a : Shape) : Moves (.constant v) a (.value :: a)
  | text (s : String) (a : Shape) : Moves (.constant (.string s)) a (.text :: a)
  | binary (op : Operator) (a : Shape) :
    Moves (.binary op) (.value :: .value :: a) (.value :: a)
  | negate (a : Shape) : Moves .negate (.value :: a) (.value :: a)
  | not (a : Shape) : Moves .not (.value :: a) (.value :: a)
  | getVariable (name : String) (a : Shape) : Moves (.getVariable name) a (.value :: a)
  | setVariable (name : String) (a : Shape) :
    Moves (.setVariable name) (.value :: a) (.value :: a)
  | getComponent (name : String) (a : Shape) :
    Moves (.getComponent name) (.value :: a) (.value :: a)
  | pop (a : Shape) : Moves .pop (.value :: a) a
  | fireEvent (event : String) (targeted : Bool) (count : ℕ) :
    Moves (.fireEvent event targeted count) (argumentShape count (targetShape targeted)) []
  | changeState (state : String) : Moves (.changeState state) [] []
  | jump (distance : ℕ) (a : Shape) : Moves (.jump distance) a a
  | jumpIfFalse (distance : ℕ) (a : Shape) :
    Moves (.jumpIfFalse distance) (.value :: a) (.value :: a)
  | ret : Moves .ret [] []

end Symbolic

/-- Instructions, each with the shape of the operands before it. -/
abbrev Layout := List (Symbolic × Shape)

namespace Layout

/-- The instructions of a layout. -/
def code (l : Layout) : List Symbolic := l.map (·.1)

/-- No layout has no instructions. -/
@[simp] theorem code_nil : code [] = [] := rfl

/-- A layout has its first instruction and those of the rest. -/
@[simp] theorem code_cons (x : Symbolic × Shape) (l : Layout) : code (x :: l) = x.1 :: code l := rfl

/-- A layout has the instructions of its two parts, one behind the other. -/
@[simp] theorem code_append (l m : Layout) : code (l ++ m) = code l ++ code m := List.map_append

/-- The shape before a layout that ends with a shape. -/
def start (last : Shape) : Layout → Shape
  | [] => last
  | x :: _ => x.2

/-- The shape before no layout is the one behind it. -/
@[simp] theorem start_nil (last : Shape) : start last [] = last := rfl

/-- The shape before a layout is that of its first instruction. -/
@[simp] theorem start_cons (last : Shape) (x : Symbolic × Shape) (l : Layout) :
    start last (x :: l) = x.2 := rfl

/-- The shape before two layouts is the one before the first, with that before the second behind it.
-/
theorem start_append (last : Shape) (l m : Layout) :
    start last (l ++ m) = start (start last m) l := by
  cases l <;> rfl

/-- So many bytes into a layout, instructions begin with a shape. -/
def Lands (last : Shape) (l : Layout) (distance : ℕ) (a : Shape) : Prop :=
  ∃ passed rest, l = passed ++ rest ∧ codeSize (code passed) = distance ∧ start last rest = a

/-- A layout begins with the shape before it. -/
theorem lands_start (last : Shape) (l : Layout) : Lands last l 0 (start last l) :=
  ⟨[], l, rfl, rfl, rfl⟩

/-- What lands in a layout lands at the same distance when another one follows. -/
theorem Lands.append {last : Shape} {l m : Layout} {distance : ℕ} {a : Shape}
    (h : Lands (start last m) l distance a) : Lands last (l ++ m) distance a := by
  obtain ⟨passed, rest, rfl, hsize, hstart⟩ := h
  exact ⟨passed, rest ++ m, List.append_assoc .., hsize, by rw [start_append, hstart]⟩

/-- Every instruction finds what it takes, and leaves what is written where it may go on. -/
inductive Valid (last : Shape) : Layout → Prop
  | nil : Valid last []
  | cons {i : Symbolic} {a b : Shape} {rest : Layout} (moves : i.Moves a b)
      (exits : ∀ d ∈ i.exits, Lands last rest d b) (tail : Valid last rest) :
    Valid last ((i, a) :: rest)

/-- Two valid layouts are valid one behind the other. -/
theorem Valid.append {last : Shape} {l m : Layout} (hl : Valid (start last m) l)
    (hm : Valid last m) : Valid last (l ++ m) := by
  induction hl with
  | nil => exact hm
  | cons moves exits _ ih => exact .cons moves (fun d hd => (exits d hd).append) ih

/-- The second part of a valid layout is valid. -/
theorem Valid.suffix {last : Shape} {l m : Layout} (h : Valid last (l ++ m)) : Valid last m := by
  induction l with
  | nil => exact h
  | cons x l ih =>
    cases h with
    | cons _ _ tail => exact ih tail

/-- Dropping a value may stand in front of a valid layout that begins with the shape without it. -/
theorem Valid.pop {last a : Shape} {l : Layout} (h : Valid last l) (hstart : start last l = a) :
    Valid last ((.pop, .value :: a) :: l) := by
  subst hstart
  refine .cons (.pop _) (fun d hd => ?_) h
  obtain rfl : d = 0 := by simpa [Symbolic.exits] using hd
  exact lands_start last l

/-- A jump to the end of a layout. -/
theorem Valid.jump {last : Shape} {l : Layout} (h : Valid last l) :
    Valid last ((.jump (codeSize (code l)), last) :: l) := by
  refine .cons (.jump _ last) (fun d hd => ?_) h
  obtain rfl : d = codeSize (code l) := by simpa [Symbolic.exits] using hd
  exact ⟨l, [], (List.append_nil l).symm, rfl, rfl⟩

/-- A decision of the topmost operand, which lies there on both ways. -/
theorem Valid.jumpIfFalse {last a : Shape} {l : Layout} {distance : ℕ} (h : Valid last l)
    (hstart : start last l = .value :: a) (hlands : Lands last l distance (.value :: a)) :
    Valid last ((.jumpIfFalse distance, .value :: a) :: l) := by
  refine .cons (.jumpIfFalse distance a) (fun d hd => ?_) h
  rcases (by simpa [Symbolic.exits] using hd : d = 0 ∨ d = distance) with rfl | rfl
  · exact hstart ▸ lands_start last l
  · exact hlands

/-- A value that is dropped, but not behind a jump, is the only operand. -/
def Clears (x y : Symbolic × Shape) : Prop :=
  y.1 = .pop → x.1.isJump = false → y.2 = [.value]

/-- Where nothing is dropped nothing is asked of the operands. -/
theorem Clears.of_ne {x y : Symbolic × Shape} (h : y.1 ≠ .pop) : Clears x y :=
  fun hy => absurd hy h

/-- A value that is dropped behind a jump need not be the only operand. -/
theorem Clears.of_jump {x y : Symbolic × Shape} (h : x.1.isJump = true) : Clears x y := by
  intro _ hx
  rw [h] at hx
  cases hx

end Layout

/-- Code takes operands of one shape to another, and does not begin by dropping one. -/
structure Flows (code : List Symbolic) (a b : Shape) : Prop where
  head : code.head? ≠ some .pop
  layout : ∃ l : Layout, Layout.code l = code ∧ Layout.start b l = a ∧ Layout.Valid b l ∧
    List.IsChain Layout.Clears l

namespace Flows

open Layout

variable {xs ys : List Symbolic} {a b c : Shape}

/-- No code leaves the operands as they are. -/
theorem nil (a : Shape) : Flows [] a a :=
  ⟨by simp, [], rfl, rfl, .nil, .nil⟩

/-- An instruction that takes operands of one shape to another, and does not jump, flows so. -/
theorem one {i : Symbolic} (hi : i ≠ .pop) (h : i.Moves a b) (hexits : i.exits = [0]) :
    Flows [i] a b := by
  refine ⟨by simpa using hi, [(i, a)], rfl, rfl, .cons h ?_ .nil, .singleton _⟩
  intro d hd
  rw [hexits, List.mem_singleton] at hd
  exact hd ▸ lands_start b []

/-- What may follow an instruction without being dropped. -/
theorem clears_head {l : Layout} (h : (code l).head? ≠ some .pop) (x : Symbolic × Shape) :
    ∀ y ∈ l.head?, Clears x y := by
  intro y hy
  refine .of_ne fun hpop => h ?_
  rw [code, List.head?_map, Option.mem_def.1 hy, Option.map_some, hpop]

/-- Code flows on with the code behind it. -/
theorem append (h₁ : Flows xs a b) (h₂ : Flows ys b c) : Flows (xs ++ ys) a c := by
  obtain ⟨hhead₁, l, rfl, rfl, hl, hclear₁⟩ := h₁
  obtain ⟨hhead₂, m, rfl, rfl, hm, hclear₂⟩ := h₂
  refine ⟨?_, l ++ m, code_append l m, start_append c l m, hl.append hm,
    hclear₁.append hclear₂ fun x _ => clears_head hhead₂ x⟩
  cases l with
  | nil => exact hhead₂
  | cons x l => simpa using hhead₁

/-- A statement ends by dropping the only operand. -/
theorem pop (h : Flows xs [] [.value]) : Flows (xs ++ [.pop]) [] [] := by
  obtain ⟨hhead, l, rfl, hstart, hl, hclear⟩ := h
  let last : Layout := [(.pop, [.value])]
  have hvalid : Valid [] (l ++ last) := Valid.append hl (Valid.nil.pop rfl)
  refine ⟨?_, l ++ last, code_append l last, ?_, hvalid, hclear.append (.singleton _)
    fun x _ y hy => ?_⟩
  · cases l with
    | nil => cases hstart
    | cons x l => simpa using hhead
  · rw [start_append]
    exact hstart
  · obtain rfl : (Symbolic.pop, [Cell.value]) = y := Option.some.inj hy
    exact fun _ _ => rfl

/-- An operand is dropped behind a jump. -/
theorem clears_dropped {l : Layout} (h : (code l).head? ≠ some .pop) {x : Symbolic × Shape}
    (hx : x.1.isJump = true) (hl : List.IsChain Clears l) (y : Symbolic × Shape) :
    List.IsChain Clears (x :: y :: l) := by
  have htail : List.IsChain Clears ([y] ++ l) :=
    .append (.singleton y) hl fun _ hz => by
      obtain rfl : y = _ := by simpa using hz
      exact clears_head h y
  exact .cons_cons (.of_jump hx) htail

/-- The operand decides whether more code follows, which drops and replaces it. -/
theorem and (h : Flows ys a (.value :: a)) :
    Flows ([.jumpIfFalse (1 + codeSize ys), .pop] ++ ys) (.value :: a) (.value :: a) := by
  obtain ⟨hhead, l, rfl, hstart, hl, hclear⟩ := h
  refine ⟨by simp, (.jumpIfFalse (1 + codeSize (code l)), .value :: a) ::
    (.pop, .value :: a) :: l, rfl, rfl, (hl.pop hstart).jumpIfFalse rfl ?_,
    clears_dropped hhead rfl hclear _⟩
  exact ⟨(.pop, .value :: a) :: l, [], (List.append_nil _).symm, rfl, rfl⟩

/-- A disjunction drops its left operand only where the right one takes its place. -/
theorem or (h : Flows ys a (.value :: a)) :
    Flows ([.jumpIfFalse 3, .jump (1 + codeSize ys), .pop] ++ ys) (.value :: a)
      (.value :: a) := by
  obtain ⟨hhead, l, rfl, hstart, hl, hclear⟩ := h
  refine ⟨by simp, (.jumpIfFalse 3, .value :: a) :: (.jump (1 + codeSize (code l)), .value :: a) ::
    (.pop, .value :: a) :: l, rfl, rfl, (hl.pop hstart).jump.jumpIfFalse rfl ?_,
    .cons_cons (.of_ne (by simp)) (clears_dropped hhead rfl hclear _)⟩
  exact ⟨[(.jump (1 + codeSize (code l)), .value :: a)], (.pop, .value :: a) :: l, rfl, rfl, rfl⟩

/-- The operand decides which of two pieces of code follows, and is dropped in both. -/
theorem branch (h₁ : Flows xs a a) (h₂ : Flows ys a a) :
    Flows (Statement.branchCode xs ys) (.value :: a) a := by
  obtain ⟨hhead₁, l, rfl, hstart₁, hl, hclear₁⟩ := h₁
  obtain ⟨hhead₂, m, rfl, hstart₂, hm, hclear₂⟩ := h₂
  let otherwise : Layout := (.jump (1 + codeSize (code m)), a) :: (.pop, .value :: a) :: m
  have hvalid : Valid a ((.pop, .value :: a) :: (l ++ otherwise)) :=
    Valid.pop (Valid.append hl (hm.pop hstart₂).jump) (by rw [start_append]; exact hstart₁)
  have hclear : List.IsChain Clears (l ++ otherwise) :=
    hclear₁.append (clears_dropped hhead₂ rfl hclear₂ _) fun x _ y hy => by
      obtain rfl : _ = y := by simpa [otherwise] using hy
      exact .of_ne (by simp)
  refine ⟨by simp [Statement.branchCode], (.jumpIfFalse (1 + codeSize (code l) + 3), .value :: a) ::
    (.pop, .value :: a) :: (l ++ otherwise), by simp [Statement.branchCode, otherwise], rfl,
    hvalid.jumpIfFalse rfl ?_, clears_dropped ?_ rfl hclear _⟩
  · refine ⟨(.pop, .value :: a) :: (l ++ [(.jump (1 + codeSize (code m)), a)]),
      (.pop, .value :: a) :: m, by simp [otherwise], ?_, rfl⟩
    simp [Symbolic.size]
    omega
  · cases l with
    | nil => simp [otherwise]
    | cons x l => simpa using hhead₁

end Flows

/-- The code of an expression leaves one value above what it finds. -/
theorem Expression.flows (e : Expression) (a : Shape) : Flows e.code a (.value :: a) := by
  induction e generalizing a with
  | literal l => exact .one (by simp) (.constant _ a) rfl
  | var name => exact .one (by simp) (.getVariable name a) rfl
  | assign name e ih => exact (ih a).append (.one (by simp) (.setVariable name a) rfl)
  | negate e ih => exact (ih a).append (.one (by simp) (.negate a) rfl)
  | not e ih => exact (ih a).append (.one (by simp) (.not a) rfl)
  | component e name ih => exact (ih a).append (.one (by simp) (.getComponent name a) rfl)
  | binary op left right ihl ihr =>
    exact ((ihl a).append (ihr _)).append (.one (by simp) (.binary op a) rfl)
  | and left right ihl ihr => exact (ihl a).append (ihr a).and
  | or left right ihl ihr => exact (ihl a).append (ihr a).or

namespace Statement

/-- The code of arguments leaves the name and the value of each. -/
theorem flows_argumentCode (args : List (String × Expression)) (a : Shape) :
    Flows (argumentCode args) a (argumentShape args.length a) := by
  induction args generalizing a with
  | nil => exact .nil a
  | cons x args ih =>
    have hname : Flows [.constant (.string x.1)] a (.text :: a) :=
      .one (by simp) (.text x.1 a) rfl
    have hrest := ih (.value :: .text :: a)
    rw [argumentShape_cons] at hrest
    exact (hname.append (x.2.flows _)).append hrest

/-- The code of a statement finds no operands and leaves none. -/
theorem flows (stmt : Statement) : Flows stmt.code [] [] := by
  induction stmt with
  | skip => exact .nil []
  | seq first rest ih₁ ih₂ => exact ih₁.append ih₂
  | declare name type init =>
    have hset : Flows [.setVariable name] [.value] [.value] :=
      .one (by simp) (.setVariable name []) rfl
    cases init with
    | none =>
      have hvalue : Flows [.constant (unset type)] [] [.value] :=
        .one (by simp) (.constant _ []) rfl
      exact (hvalue.append hset).pop
    | some e =>
      have hall := ((e.flows []).append hset).pop
      rwa [List.append_assoc] at hall
  | branch condition whenTrue whenFalse ih₁ ih₂ =>
    exact (condition.flows []).append (ih₁.branch ih₂)
  | fire event target args =>
    have htarget : Flows (target.map fun t => Symbolic.constant (.string t.text)).toList []
        (targetShape target.isSome) := by
      cases target with
      | none => exact .nil []
      | some t => exact .one (by simp) (.text t.text []) rfl
    exact htarget.append ((flows_argumentCode args _).append
      (.one (by simp) (.fireEvent event target.isSome args.length) rfl))
  | change state => exact .one (by simp) (.changeState state) rfl
  | evaluate e => exact (e.flows []).pop

end Statement

end EntityScript.Grammar
