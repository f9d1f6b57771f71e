import EntityScript.Bytecode.Chunk
import EntityScript.Proofs.Grammar.Tree
import Mathlib.Data.List.Nodup
import Mathlib.Data.List.Dedup

/-!
# The code of a tree

The instructions that a tree stands for, before their constants have numbers: a symbolic instruction
names its constant by value, and a jump says how many bytes it passes over. Bytes come from a
pool, in which each value has the place at which it was first interned.

The order in which a tree interns its constants is not that of its instructions, because an
assigned name is interned before the value that is assigned to it. Places are settled once:
`bytes_append_pool` says that a pool that grows does not change the bytes of code written before.
-/

namespace EntityScript.Grammar

/-- An instruction that names its constant by value. -/
inductive Symbolic where
  | constant (v : Value)
  | binary (op : Operator)
  | negate
  | not
  | getVariable (name : String)
  | setVariable (name : String)
  | getComponent (name : String)
  | pop
  | fireEvent (event : String) (targeted : Bool) (count : ℕ)
  | changeState (state : String)
  | jump (distance : ℕ)
  | jumpIfFalse (distance : ℕ)
  | ret
  deriving DecidableEq, Repr

/-- Adds a value to a pool that does not hold it. -/
def pooledOne (pool : List Value) (v : Value) : List Value :=
  if v ∈ pool then pool else pool ++ [v]

/-- The pool after values are interned one after another. -/
def pooled (pool values : List Value) : List Value := values.foldl pooledOne pool

/-- The byte that names a value of a pool. -/
def slot (pool : List Value) (v : Value) : UInt8 := UInt8.ofNat (pool.idxOf v)

/-- Interning nothing leaves the pool as it is. -/
@[simp] theorem pooled_nil (pool : List Value) : pooled pool [] = pool := rfl

/-- Interning one list after another is interning both in sequence. -/
theorem pooled_append (pool vs ws : List Value) :
    pooled pool (vs ++ ws) = pooled (pooled pool vs) ws :=
  List.foldl_append ..

/-- A pool only grows, at its end. -/
theorem exists_pooled_eq_append (pool values : List Value) :
    ∃ more, pooled pool values = pool ++ more := by
  induction values generalizing pool with
  | nil => exact ⟨[], by simp⟩
  | cons v rest ih =>
    obtain ⟨more, hmore⟩ := ih (pooledOne pool v)
    by_cases hv : v ∈ pool
    · exact ⟨more, by simpa [pooled, pooledOne, hv] using hmore⟩
    · exact ⟨v :: more, by simpa [pooled, pooledOne, hv] using hmore⟩

/-- A pool holds what it held and what was interned. -/
theorem mem_pooled {pool values : List Value} {v : Value} :
    v ∈ pooled pool values ↔ v ∈ pool ∨ v ∈ values := by
  induction values generalizing pool with
  | nil => simp
  | cons w rest ih =>
    have hone : v ∈ pooledOne pool w ↔ v ∈ pool ∨ v = w := by
      by_cases hw : w ∈ pool
      · simp only [pooledOne, hw, if_true]
        constructor
        · exact Or.inl
        · rintro (h | rfl)
          · exact h
          · exact hw
      · simp [pooledOne, hw]
    change v ∈ pooled (pooledOne pool w) rest ↔ _
    rw [ih, hone, List.mem_cons]
    tauto

/-- A pool holds no value twice. -/
theorem nodup_pooled {pool : List Value} (h : pool.Nodup) (values : List Value) :
    (pooled pool values).Nodup := by
  induction values generalizing pool with
  | nil => exact h
  | cons v rest ih =>
    refine ih ?_
    by_cases hv : v ∈ pool
    · simpa [pooledOne, hv] using h
    · rw [pooledOne, if_neg hv]
      exact List.nodup_append.2 ⟨h, by simp, by
        intro a ha b hb hab
        rw [List.mem_singleton] at hb
        exact hv (hb ▸ hab ▸ ha)⟩

/-- A pool that began empty has one place for each distinct value. -/
theorem length_pooled_nil (values : List Value) :
    (pooled [] values).length = values.dedup.length := by
  refine List.Perm.length_eq ?_
  refine (List.perm_ext_iff_of_nodup (nodup_pooled List.nodup_nil _) (List.nodup_dedup _)).2 ?_
  intro v
  simp [mem_pooled]

/-- Interning never makes a pool smaller. -/
theorem length_le_pooled (pool values : List Value) :
    pool.length ≤ (pooled pool values).length := by
  obtain ⟨more, hmore⟩ := exists_pooled_eq_append pool values
  simp [hmore]

namespace Symbolic

/-- The constant that an instruction names. -/
def constant? : Symbolic → Option Value
  | constant v => some v
  | getVariable name | setVariable name | getComponent name | changeState name =>
    some (.string name)
  | fireEvent event _ _ => some (.string event)
  | binary _ | negate | not | pop | jump _ | jumpIfFalse _ | ret => none

/-- The instruction with the place of its constant in a pool. -/
def assemble (pool : List Value) : Symbolic → Instruction
  | constant v => .constant (slot pool v)
  | binary op => .binary op
  | negate => .negate
  | not => .not
  | getVariable name => .getVariable (slot pool (.string name))
  | setVariable name => .setVariable (slot pool (.string name))
  | getComponent name => .getComponent (slot pool (.string name))
  | pop => .pop
  | fireEvent event targeted count =>
    .fireEvent (slot pool (.string event)) (if targeted then Instruction.targetFlag else 0)
      (UInt8.ofNat count)
  | changeState state => .changeState (slot pool (.string state))
  | jump distance => .jump (UInt16.ofNat distance)
  | jumpIfFalse distance => .jumpIfFalse (UInt16.ofNat distance)
  | ret => .ret

/-- How many bytes an instruction has. -/
def size : Symbolic → ℕ
  | constant _ | getVariable _ | setVariable _ | getComponent _ | changeState _ => 2
  | jump _ | jumpIfFalse _ => 3
  | fireEvent _ _ _ => 4
  | binary _ | negate | not | pop | ret => 1

/-- The numbers in an instruction have room in its operands. -/
def Fits : Symbolic → Prop
  | fireEvent _ _ count => count ≤ 255
  | jump distance | jumpIfFalse distance => distance ≤ 65535
  | _ => True

instance : DecidablePred Fits := fun i => by
  cases i <;> unfold Fits <;> infer_instance

/-- Assembling an instruction does not change how many bytes it has. -/
@[simp] theorem size_assemble (pool : List Value) (i : Symbolic) :
    (i.assemble pool).size = i.size := by
  cases i <;> rfl

/-- Every instruction has a byte. -/
theorem size_pos (i : Symbolic) : 0 < i.size := by
  cases i <;> simp [size]

end Symbolic

/-- How many bytes code has. -/
def codeSize : List Symbolic → ℕ
  | [] => 0
  | i :: rest => i.size + codeSize rest

/-- No code has no bytes. -/
@[simp] theorem codeSize_nil : codeSize [] = 0 := rfl

/-- Code has the bytes of its first instruction and of the rest. -/
@[simp] theorem codeSize_cons (i : Symbolic) (rest : List Symbolic) :
    codeSize (i :: rest) = i.size + codeSize rest := rfl

/-- Code has the bytes of its two parts. -/
@[simp] theorem codeSize_append (a b : List Symbolic) :
    codeSize (a ++ b) = codeSize a + codeSize b := by
  induction a with
  | nil => simp
  | cons i rest ih => simp [ih, Nat.add_assoc]

/-- The bytes of code, with the places that a pool gives to its constants. -/
def bytes (pool : List Value) (code : List Symbolic) : List UInt8 :=
  code.flatMap fun i => (i.assemble pool).encode

/-- No code is written as no bytes. -/
@[simp] theorem bytes_nil (pool : List Value) : bytes pool [] = [] := rfl

/-- Code is written as its first instruction and the rest behind it. -/
@[simp] theorem bytes_cons (pool : List Value) (i : Symbolic) (rest : List Symbolic) :
    bytes pool (i :: rest) = (i.assemble pool).encode ++ bytes pool rest := rfl

/-- Code is written as its two parts, one behind the other. -/
@[simp] theorem bytes_append (pool : List Value) (a b : List Symbolic) :
    bytes pool (a ++ b) = bytes pool a ++ bytes pool b :=
  List.flatMap_append

/-- As many bytes are written as the code has. -/
@[simp] theorem length_bytes (pool : List Value) (code : List Symbolic) :
    (bytes pool code).length = codeSize code := by
  induction code with
  | nil => rfl
  | cons i rest ih => simp [Instruction.length_encode, ih]

/-- Every constant that code names is in a pool. -/
def Pooled (pool : List Value) (code : List Symbolic) : Prop :=
  ∀ i ∈ code, ∀ v, i.constant? = some v → v ∈ pool

/-- No code needs no constants. -/
@[simp] theorem Pooled.nil (pool : List Value) : Pooled pool [] := by simp [Pooled]

/-- Code is pooled if both of its parts are. -/
theorem Pooled.append {pool : List Value} {a b : List Symbolic} (ha : Pooled pool a)
    (hb : Pooled pool b) : Pooled pool (a ++ b) := by
  intro i hi
  rcases List.mem_append.1 hi with h | h
  · exact ha i h
  · exact hb i h

/-- Code that is pooled stays so when more values are interned. -/
theorem Pooled.mono {pool : List Value} {code : List Symbolic} (h : Pooled pool code)
    (values : List Value) : Pooled (pooled pool values) code :=
  fun i hi v hv => mem_pooled.2 (.inl (h i hi v hv))

/-- Constants that are added behind the pool do not move those that an instruction names. -/
theorem Symbolic.assemble_append_pool {pool : List Value} {i : Symbolic}
    (h : ∀ v, i.constant? = some v → v ∈ pool) (more : List Value) :
    i.assemble (pool ++ more) = i.assemble pool := by
  have hslot : ∀ v, i.constant? = some v → slot (pool ++ more) v = slot pool v := by
    intro v hv
    rw [slot, List.idxOf_append_of_mem (h v hv), slot]
  cases i <;> simp_all [Symbolic.assemble, Symbolic.constant?]

/-- A pool that grows keeps the bytes of code whose constants it holds. -/
theorem bytes_append_pool {pool : List Value} {code : List Symbolic} (h : Pooled pool code)
    (more : List Value) : bytes (pool ++ more) code = bytes pool code := by
  induction code with
  | nil => rfl
  | cons i rest ih =>
    have hi : i.assemble (pool ++ more) = i.assemble pool :=
      Symbolic.assemble_append_pool (h i List.mem_cons_self) more
    have hrest : Pooled pool rest := fun j hj => h j (List.mem_cons_of_mem _ hj)
    rw [bytes_cons, bytes_cons, hi, ih hrest]

/-- The same for a pool that grows by interning. -/
theorem bytes_pooled {pool : List Value} {code : List Symbolic} (h : Pooled pool code)
    (values : List Value) : bytes (pooled pool values) code = bytes pool code := by
  obtain ⟨more, hmore⟩ := exists_pooled_eq_append pool values
  rw [hmore, bytes_append_pool h]

namespace Expression

/-- The constants of an expression, in the order in which they are interned. -/
def constants : Expression → List Value
  | literal l => [l.value]
  | var name => [.string name]
  | assign name e => .string name :: e.constants
  | negate e | not e => e.constants
  | binary _ a b | and a b | or a b => a.constants ++ b.constants
  | component e name => e.constants ++ [.string name]

/-- The instructions that leave the value of an expression on the stack. -/
def code : Expression → List Symbolic
  | literal l => [.constant l.value]
  | var name => [.getVariable name]
  | assign name e => e.code ++ [.setVariable name]
  | negate e => e.code ++ [.negate]
  | not e => e.code ++ [.not]
  | binary op a b => a.code ++ b.code ++ [.binary op]
  | and a b => a.code ++ ([.jumpIfFalse (1 + codeSize b.code), .pop] ++ b.code)
  | or a b => a.code ++ ([.jumpIfFalse 3, .jump (1 + codeSize b.code), .pop] ++ b.code)
  | component e name => e.code ++ [.getComponent name]

end Expression

namespace Statement

/-- What a variable begins with if nothing else is said. -/
def unset (type : Option String) : Value := ((annotatedType type).getD .number).unset

/-- The constants of a statement, in the order in which they are interned. -/
def constants : Statement → List Value
  | skip => []
  | seq first rest => first.constants ++ rest.constants
  | declare name type none => [unset type] ++ [.string name]
  | declare name _ (some e) => e.constants ++ [.string name]
  | branch condition whenTrue whenFalse =>
    condition.constants ++ (whenTrue.constants ++ whenFalse.constants)
  | fire event target args =>
    [.string event] ++ ((target.map fun t => Value.string t.text).toList
      ++ args.flatMap fun a => [.string a.1] ++ a.2.constants)
  | change state => [.string state]
  | evaluate e => e.constants

/-- The instructions of the arguments of an event: each leaves its name and its value. -/
def argumentCode (args : List (String × Expression)) : List Symbolic :=
  args.flatMap fun a => [.constant (.string a.1)] ++ a.2.code

/-- The instructions of a conditional statement behind its condition. -/
def branchCode (whenTrue whenFalse : List Symbolic) : List Symbolic :=
  [.jumpIfFalse (1 + codeSize whenTrue + 3), .pop] ++ whenTrue
    ++ ([.jump (1 + codeSize whenFalse), .pop] ++ whenFalse)

/-- The instructions of a statement. They leave the stack as they find it. -/
def code : Statement → List Symbolic
  | skip => []
  | seq first rest => first.code ++ rest.code
  | declare name type none => [.constant (unset type)] ++ [.setVariable name, .pop]
  | declare name _ (some e) => e.code ++ [.setVariable name, .pop]
  | branch condition whenTrue whenFalse =>
    condition.code ++ branchCode whenTrue.code whenFalse.code
  | fire event target args =>
    (target.map fun t => Symbolic.constant (.string t.text)).toList
      ++ (argumentCode args ++ [.fireEvent event target.isSome args.length])
  | change state => [.changeState state]
  | evaluate e => e.code ++ [.pop]

end Statement

end EntityScript.Grammar
