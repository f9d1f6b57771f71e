import EntityScript.Proofs.Bytecode.Held
import EntityScript.Proofs.Bytecode.WellFormed
import EntityScript.Proofs.Grammar.Shape

/-!
# Chunks with a layout

A chunk holds a layout if its bytes are those of the instructions of the layout, with the places
that its pool of constants gives them. The shapes of the layout are then the heights that
well-formed code is to have: `LaidOut.wellFormed` needs nothing else of where the code comes from.
-/

namespace EntityScript.Grammar

/-- What an instruction names exists: a component of vectors, or one of the states. -/
def Symbolic.Names (states : List String) : Symbolic → Prop
  | getComponent name => name = "x" ∨ name = "y"
  | changeState state => state ∈ states
  | _ => True

/-- The components that the code of a legal expression names are those of vectors. -/
theorem Expression.names {e : Expression} (h : e.Legal) (states : List String) :
    ∀ i ∈ e.code, i.Names states := by
  induction e with
  | literal l => simp [code, Symbolic.Names]
  | var name => simp [code, Symbolic.Names]
  | assign name e ih | negate e ih | not e ih =>
    have he := ih h
    simpa [code, or_imp, forall_and, Symbolic.Names] using he
  | component e name ih =>
    have he := ih h.1
    simpa [code, or_imp, forall_and, Symbolic.Names] using ⟨he, h.2⟩
  | binary op left right ihl ihr | and left right ihl ihr | or left right ihl ihr =>
    have hl := ihl h.1
    have hr := ihr h.2
    simpa [code, or_imp, forall_and, Symbolic.Names] using ⟨hl, hr⟩

/-- The components and the states that the code of a legal statement names exist. -/
theorem Statement.names {stmt : Statement} (h : stmt.Legal) {states : List String}
    (ht : ∀ t ∈ stmt.targets, t ∈ states) : ∀ i ∈ stmt.code, i.Names states := by
  induction stmt with
  | skip => simp [code]
  | seq first rest ih₁ ih₂ =>
    simp only [targets, List.mem_append, or_imp, forall_and] at ht
    simpa [code, or_imp, forall_and] using ⟨ih₁ h.1 ht.1, ih₂ h.2 ht.2⟩
  | declare name type init =>
    cases init with
    | none => simp [code, Symbolic.Names]
    | some e =>
      have he := e.names (h.2.2 e rfl) states
      simpa [code, or_imp, forall_and, Symbolic.Names] using he
  | branch condition whenTrue whenFalse ih₁ ih₂ =>
    simp only [targets, List.mem_append, or_imp, forall_and] at ht
    have hc := condition.names h.1 states
    simpa [code, branchCode, or_imp, forall_and, Symbolic.Names]
      using ⟨hc, ih₁ h.2.1 ht.1, ih₂ h.2.2 ht.2⟩
  | fire event target args =>
    have hargs : ∀ i ∈ argumentCode args, i.Names states := by
      intro i hi
      obtain ⟨x, hx, hi⟩ := List.mem_flatMap.1 hi
      rcases List.mem_append.1 hi with hi | hi
      · obtain rfl := List.mem_singleton.1 hi
        trivial
      · exact x.2.names (h.2 x hx) states i hi
    cases target with
    | none => simpa [code, or_imp, forall_and, Symbolic.Names] using hargs
    | some t => simpa [code, or_imp, forall_and, Symbolic.Names] using hargs
  | change state => simpa [code, Symbolic.Names] using ht state (by simp [targets])
  | evaluate e => simpa [code, or_imp, forall_and, Symbolic.Names] using e.names h states

namespace Symbolic

/-- The flag of an event says whether it is targeted. -/
theorem isTargeted_flag (targeted : Bool) :
    Instruction.isTargeted (if targeted then Instruction.targetFlag else 0) = targeted := by
  cases targeted <;> decide

/-- A number of arguments with room in a byte is read back from it. -/
theorem toNat_count {count : ℕ} (h : count ≤ 255) : (UInt8.ofNat count).toNat = count := by
  rw [UInt8.toNat_ofNat', Nat.mod_eq_of_lt (by omega)]

/-- A distance with room in a word is read back from it. -/
theorem toNat_distance {distance : ℕ} (h : distance ≤ 65535) :
    (UInt16.ofNat distance).toNat = distance := by
  rw [UInt16.toNat_ofNat', Nat.mod_eq_of_lt (by omega)]

variable {i : Symbolic} {a b : Shape}

/-- Instructions in bytes take and leave as many operands as shapes say. -/
theorem Moves.effect (h : i.Moves a b) (hfits : i.Fits) (pool : List Value) :
    (i.assemble pool).takes ≤ a.length ∧
      b.length = a.length - (i.assemble pool).takes + (i.assemble pool).leaves := by
  cases h with
  | fireEvent event targeted count =>
    have hcount : (UInt8.ofNat count).toNat = count := toNat_count hfits
    have hlength : (argumentShape count (targetShape targeted)).length
        = 2 * count + if targeted then 1 else 0 := by
      rw [length_argumentShape]
      cases targeted <;> rfl
    simp [assemble, Instruction.takes, Instruction.leaves, hcount, isTargeted_flag, hlength]
  | _ => simp [assemble, Instruction.takes, Instruction.leaves]

/-- Instructions in bytes go on where symbolic ones do. -/
theorem successors_assemble (hfits : i.Fits) (pool : List Value) (offset : ℕ) :
    (i.assemble pool).successors offset = i.exits.map (offset + i.size + ·) := by
  cases i with
  | jump distance =>
    have hdistance : (UInt16.ofNat distance).toNat = distance := toNat_distance hfits
    change [offset + 3 + (UInt16.ofNat distance).toNat] = [offset + 3 + distance]
    rw [hdistance]
  | jumpIfFalse distance =>
    have hdistance : (UInt16.ofNat distance).toNat = distance := toNat_distance hfits
    change [offset + 3, offset + 3 + (UInt16.ofNat distance).toNat]
      = [offset + 3, offset + 3 + distance]
    rw [hdistance]
  | _ => rfl

/-- A jump in bytes leads where the symbolic one does. -/
theorem target?_assemble (hfits : i.Fits) (pool : List Value) {offset target : ℕ}
    (h : (i.assemble pool).target? offset = some target) :
    ∃ d ∈ i.exits, target = offset + i.size + d := by
  cases i with
  | jump distance | jumpIfFalse distance =>
    have hdistance : (UInt16.ofNat distance).toNat = distance := toNat_distance hfits
    simp only [assemble, Instruction.target?, hdistance, Option.some.injEq] at h
    exact ⟨distance, by simp [exits], h.symm⟩
  | _ => cases h

/-- An instruction without a target is no jump. -/
theorem isJump_of_target? {pool : List Value} {offset : ℕ}
    (h : (i.assemble pool).target? offset = none) : i.isJump = false := by
  cases i <;> first | rfl | cases h

/-- An instruction in bytes names the constant of the symbolic one. -/
theorem index?_assemble {pool : List Value} {index : UInt8}
    (h : (i.assemble pool).index? = some index) :
    ∃ v, i.constant? = some v ∧ index = slot pool v := by
  cases i <;> first
    | exact ⟨_, rfl, (Option.some.inj h).symm⟩
    | cases h

/-- Where an instruction names a text, its operand is the place of that text in the pool. -/
theorem name?_assemble {pool : List Value} {index : UInt8}
    (h : (i.assemble pool).name? = some index) :
    ∃ s, i.constant? = some (.string s) ∧ index = slot pool (.string s) := by
  cases i <;> first
    | exact ⟨_, rfl, (Option.some.inj h).symm⟩
    | cases h

end Symbolic

namespace Layout

/-- The instructions of a layout in bytes with their offsets. -/
def placed (pool : List Value) : ℕ → Layout → List (ℕ × Instruction)
  | _, [] => []
  | offset, x :: rest => (offset, x.1.assemble pool) :: placed pool (offset + x.1.size) rest

/-- Behind one layout another one is placed where the code of the first ends. -/
theorem placed_append (pool : List Value) (offset : ℕ) (l m : Layout) :
    placed pool offset (l ++ m) =
      placed pool offset l ++ placed pool (offset + codeSize (code l)) m := by
  induction l generalizing offset with
  | nil => rfl
  | cons x l ih =>
    have hoffset : offset + x.1.size + codeSize (code l) = offset + codeSize (code (x :: l)) := by
      simp [Nat.add_assoc]
    rw [List.cons_append, placed, ih, hoffset]
    rfl

/-- What is placed somewhere stands somewhere in the layout. -/
theorem exists_of_placed {pool : List Value} {offset : ℕ} {l : Layout}
    {before after : List (ℕ × Instruction)} {y : ℕ × Instruction}
    (h : placed pool offset l = before ++ y :: after) : ∃ p x r, l = p ++ x :: r ∧
      placed pool offset p = before ∧ y = (offset + codeSize (code p), x.1.assemble pool) ∧
      placed pool (offset + codeSize (code p) + x.1.size) r = after := by
  induction l generalizing offset before with
  | nil => simp [placed] at h
  | cons x l ih =>
    cases before with
    | nil =>
      rw [placed, List.nil_append, List.cons.injEq] at h
      exact ⟨[], x, l, rfl, rfl, h.1.symm, h.2⟩
    | cons z before =>
      rw [placed, List.cons_append, List.cons.injEq] at h
      obtain ⟨p, x', r, rfl, rfl, hy, hr⟩ := ih h.2
      refine ⟨x :: p, x', r, rfl, by rw [placed, h.1], ?_, ?_⟩
      · rw [hy, code_cons, codeSize_cons, Nat.add_assoc]
      · rw [← hr, code_cons, codeSize_cons, ← Nat.add_assoc]

/-- A placed instruction is one of the layout, behind the code of those before it. -/
theorem exists_of_mem_placed {pool : List Value} {l : Layout} {y : ℕ × Instruction}
    (h : y ∈ placed pool 0 l) : ∃ p x r, l = p ++ x :: r ∧
      y = (codeSize (code p), x.1.assemble pool) := by
  obtain ⟨before, after, hsplit⟩ := List.append_of_mem h
  obtain ⟨p, x, r, rfl, -, hy, -⟩ := exists_of_placed hsplit
  exact ⟨p, x, r, rfl, by rw [hy, Nat.zero_add]⟩

/-- An instruction of a layout is placed behind the code of those before it. -/
theorem mem_placed (pool : List Value) (p : Layout) (x : Symbolic × Shape) (r : Layout) :
    (codeSize (code p), x.1.assemble pool) ∈ placed pool 0 (p ++ x :: r) := by
  rw [placed_append, Nat.zero_add]
  exact List.mem_append_right _ List.mem_cons_self

/-- How many operands lie below an instruction at an offset, and none at the end. -/
def height : Layout → ℕ → ℕ
  | [], _ => 0
  | x :: rest, offset => if offset = 0 then x.2.length else height rest (offset - x.1.size)

/-- The height between two layouts is that of the shape before the second. -/
theorem height_append (l m : Layout) :
    height (l ++ m) (codeSize (code l)) = (start [] m).length := by
  induction l with
  | nil => cases m <;> rfl
  | cons x l ih =>
    have hpos := x.1.size_pos
    rw [List.cons_append, height, code_cons, codeSize_cons, if_neg (by omega),
      Nat.add_sub_cancel_left, ih]

end Layout

/-- A chunk holds the code of a layout and nothing else, for a script with these states. No
instruction goes on behind the last one. -/
structure LaidOut (states : List String) (l : Layout) (chunk : Chunk) : Prop where
  holds : Holds chunk 0 (Layout.code l)
  size : chunk.size = codeSize (Layout.code l)
  names : ∀ i ∈ Layout.code l, i.Names states
  start : Layout.start [] l = []
  moves : ∀ p x r, l = p ++ x :: r → ∃ b, x.1.Moves x.2 b ∧ ∀ d ∈ x.1.exits, ∃ q y s,
    r = q ++ y :: s ∧ codeSize (Layout.code q) = d ∧ y.2 = b
  clears : List.IsChain Layout.Clears l
  ends : ∃ before, l = before ++ [(.ret, [])]

namespace LaidOut

open Layout

variable {states : List String} {l p r : Layout} {x : Symbolic × Shape} {chunk : Chunk}

/-- What follows a part of the layout stands behind its bytes. -/
theorem suffix (h : LaidOut states (p ++ r) chunk) : Holds chunk (codeSize (code p)) (code r) := by
  have hholds := h.holds
  rw [code_append] at hholds
  have hright := hholds.right
  rwa [Nat.zero_add] at hright

/-- A laid out chunk has the sizes of the two parts of its layout. -/
theorem size_suffix (h : LaidOut states (p ++ r) chunk) :
    chunk.size = codeSize (code p) + codeSize (code r) := by
  rw [h.size, code_append, codeSize_append]

/-- The operands of every instruction of a laid out chunk have room for what is in them. -/
theorem fits (h : LaidOut states (p ++ x :: r) chunk) : x.1.Fits :=
  h.suffix.fits x.1 (by simp)

/-- An instruction goes on where the layout has an instruction with the shape that it leaves. -/
theorem goes (h : LaidOut states (p ++ x :: r) chunk) : ∃ b, x.1.Moves x.2 b ∧
    ∀ d ∈ x.1.exits, ∃ q y s, p ++ x :: r = q ++ y :: s ∧
      codeSize (code q) = codeSize (code p) + x.1.size + d ∧ y.2 = b := by
  obtain ⟨b, hmoves, hexits⟩ := h.moves p x r rfl
  refine ⟨b, hmoves, fun d hd => ?_⟩
  obtain ⟨q, y, s, rfl, hsize, hshape⟩ := hexits d hd
  refine ⟨p ++ x :: q, y, s, by simp, ?_, hshape⟩
  rw [code_append, code_cons, codeSize_append, codeSize_cons, hsize, Nat.add_assoc]

/-- Decoding a laid out chunk between two instructions finds the instructions that follow. -/
theorem decodeFrom (h : LaidOut states (p ++ r) chunk) : chunk.decodeFrom (codeSize (code p))
    = some (placed chunk.constants.toList (codeSize (code p)) r) := by
  induction r generalizing p with
  | nil =>
    have hsize := h.size_suffix
    rw [Chunk.decodeFrom, dif_neg (by simp [hsize])]
    rfl
  | cons x r ih =>
    obtain ⟨hlt, hfetch⟩ := h.suffix.fetch
    have hsplit : p ++ x :: r = (p ++ [x]) ++ r := by simp
    have hnext := ih (hsplit ▸ h)
    have hoffset : codeSize (code (p ++ [x])) = codeSize (code p) + x.1.size := by simp
    rw [hoffset] at hnext
    rw [Chunk.decodeFrom, dif_pos hlt, hfetch]
    dsimp only
    rw [Symbolic.size_assemble, hnext]
    rfl

/-- A layout begins with an instruction that finds no operands. -/
theorem first (h : LaidOut states l chunk) : ∃ x s, l = x :: s ∧ x.2 = [] := by
  obtain ⟨before, rfl⟩ := h.ends
  cases before with
  | nil => exact ⟨_, [], rfl, rfl⟩
  | cons x before => exact ⟨x, before ++ [(.ret, [])], rfl, h.start⟩

/-- Heights agree wherever execution may go on behind an instruction. -/
theorem height_next (h : LaidOut states (p ++ x :: r) chunk) {next : ℕ}
    (hnext : next ∈ (x.1.assemble chunk.constants.toList).successors (codeSize (code p))) :
    ∃ q y s, p ++ x :: r = q ++ y :: s ∧ next = codeSize (code q) ∧ y.2.length =
      x.2.length - (x.1.assemble chunk.constants.toList).takes
        + (x.1.assemble chunk.constants.toList).leaves := by
  obtain ⟨b, hmoves, hgoes⟩ := h.goes
  rw [Symbolic.successors_assemble h.fits] at hnext
  obtain ⟨d, hd, rfl⟩ := List.mem_map.1 hnext
  obtain ⟨q, y, s, hsplit, hsize, rfl⟩ := hgoes d hd
  exact ⟨q, y, s, hsplit, hsize.symm, (hmoves.effect h.fits _).2⟩

/-- Execution only comes to instructions of the layout, and with their heights. -/
theorem reaches (h : LaidOut states l chunk) {offset n : ℕ} (hreaches : chunk.Reaches offset n) :
    ∃ q y s, l = q ++ y :: s ∧ offset = codeSize (code q) ∧ n = y.2.length := by
  induction hreaches with
  | start =>
    obtain ⟨x, s, hsplit, hshape⟩ := h.first
    exact ⟨[], x, s, hsplit, rfl, (congrArg List.length hshape).symm⟩
  | @step offset height next i reached hlt fetched goes ih =>
    obtain ⟨q, y, s, rfl, rfl, rfl⟩ := ih
    obtain ⟨_, hfetch⟩ := h.suffix.fetch
    obtain rfl : y.1.assemble chunk.constants.toList = i :=
      Fetched.instruction.inj (hfetch.symm.trans fetched)
    obtain ⟨q', y', s', hsplit, hnext, hheight⟩ := h.height_next goes
    exact ⟨q', y', s', hsplit, hnext, hheight.symm⟩

/-- A symbolic instruction behind an instruction in bytes. -/
theorem exists_of_mem {offset : ℕ} {i : Instruction}
    (h : LaidOut states l chunk) (hmem : (offset, i) ∈ placed chunk.constants.toList 0 l) :
    ∃ p x r, l = p ++ x :: r ∧ offset = codeSize (code p) ∧
      x.1.assemble chunk.constants.toList = i ∧ x.1.Names states ∧
      ∀ v, x.1.constant? = some v →
        chunk.constant? (slot chunk.constants.toList v) = some v := by
  obtain ⟨p, x, r, rfl, hy⟩ := exists_of_mem_placed hmem
  obtain ⟨rfl, rfl⟩ := Prod.mk.inj hy
  exact ⟨p, x, r, rfl, rfl, rfl, h.names x.1 (by simp),
    fun v hv => h.suffix.constant? (by simp) hv⟩

/-- The height directly behind an instruction that execution may go on behind. -/
theorem height_behind (h : LaidOut states (p ++ x :: r) chunk) (hzero : 0 ∈ x.1.exits) :
    ∃ b, x.1.Moves x.2 b ∧ height (p ++ x :: r) (codeSize (code p) + x.1.size) = b.length := by
  obtain ⟨b, hmoves, hgoes⟩ := h.goes
  obtain ⟨q, y, s, hsplit, hsize, rfl⟩ := hgoes 0 hzero
  refine ⟨y.2, hmoves, ?_⟩
  rw [Nat.add_zero] at hsize
  rw [← hsize, hsplit, height_append]
  rfl

/-- A value that is dropped behind an instruction that is no jump was the only one. -/
theorem height_dropped {y : Symbolic × Shape} (h : LaidOut states (p ++ x :: y :: r) chunk)
    (hjump : x.1.isJump = false) (hy : y.1 = .pop) :
    height (p ++ x :: y :: r) (codeSize (code p) + x.1.size + 1) = 0 := by
  obtain ⟨i, a⟩ := y
  obtain rfl : i = .pop := hy
  obtain rfl : a = [.value] := (List.isChain_append_cons_cons.1 h.clears).2.1 rfl hjump
  have hassoc : p ++ x :: (.pop, [.value]) :: r = (p ++ [x]) ++ (.pop, [.value]) :: r := by simp
  have hoffset : codeSize (code p) + x.1.size = codeSize (code (p ++ [x])) := by simp
  rw [hassoc] at h ⊢
  obtain ⟨b, hmoves, hheight⟩ := h.height_behind (by simp [Symbolic.exits])
  cases hmoves
  rw [hoffset]
  exact hheight

/-- A layout keeps its chunk well formed. -/
theorem wellFormed (h : LaidOut states l chunk) :
    chunk.WellFormed states (placed chunk.constants.toList 0 l) (height l) where
  -- Each clause is about one instruction of the layout, with those before and behind it split off.
  decoded := decodeFrom (p := []) h
  ends := by
    obtain ⟨before, rfl⟩ := h.ends
    exact ⟨placed chunk.constants.toList 0 before, _, placed_append ..⟩
  jumps := by
    rintro ⟨offset, i⟩ hmem target htarget
    obtain ⟨p, x, r, rfl, rfl, rfl, -⟩ := h.exists_of_mem hmem
    obtain ⟨b, -, hgoes⟩ := h.goes
    obtain ⟨d, hd, rfl⟩ := Symbolic.target?_assemble h.fits _ htarget
    obtain ⟨q, y, s, hsplit, hsize, -⟩ := hgoes d hd
    rw [← hsize, hsplit]
    exact ⟨_, mem_placed _ q y s⟩
  constants := by
    rintro ⟨offset, i⟩ hmem index hindex
    obtain ⟨p, x, r, rfl, rfl, rfl, -, hconstant⟩ := h.exists_of_mem hmem
    obtain ⟨v, hv, rfl⟩ := Symbolic.index?_assemble hindex
    exact ⟨v, hconstant v hv⟩
  names := by
    rintro ⟨offset, i⟩ hmem index hindex
    obtain ⟨p, x, r, rfl, rfl, rfl, -, hconstant⟩ := h.exists_of_mem hmem
    obtain ⟨s, hs, rfl⟩ := Symbolic.name?_assemble hindex
    exact ⟨s, hconstant _ hs⟩
  components := by
    intro offset index hmem
    obtain ⟨p, ⟨i, a⟩, r, rfl, rfl, hi, hnames, hconstant⟩ := h.exists_of_mem hmem
    cases i <;> cases hi
    rcases hnames with rfl | rfl
    · exact .inl (hconstant _ rfl)
    · exact .inr (hconstant _ rfl)
  states := by
    intro offset index hmem
    obtain ⟨p, ⟨i, a⟩, r, rfl, rfl, hi, hnames, hconstant⟩ := h.exists_of_mem hmem
    cases i <;> cases hi
    exact ⟨_, hnames, hconstant _ rfl⟩
  enough := by
    rintro ⟨offset, i⟩ hmem
    obtain ⟨p, x, r, rfl, rfl, rfl, -⟩ := h.exists_of_mem hmem
    obtain ⟨b, hmoves, -⟩ := h.goes
    rw [height_append]
    exact (hmoves.effect h.fits _).1
  initial := by
    have hheight := height_append [] l
    rw [h.start] at hheight
    exact hheight
  steps := by
    rintro ⟨offset, i⟩ hmem next hnext
    obtain ⟨p, x, r, rfl, rfl, rfl, -⟩ := h.exists_of_mem hmem
    obtain ⟨q, y, s, hsplit, rfl, hheight⟩ := h.height_next hnext
    dsimp only
    rw [height_append p, hsplit, height_append q]
    exact hheight
  heights := by
    intro offset n hreaches
    obtain ⟨q, y, s, rfl, rfl, rfl⟩ := h.reaches hreaches
    rw [height_append]
    rfl
  returns := by
    intro offset hmem
    obtain ⟨p, ⟨i, a⟩, r, rfl, rfl, hi, -⟩ := h.exists_of_mem hmem
    cases i <;> cases hi
    obtain ⟨b, hmoves, -⟩ := h.goes
    cases hmoves
    rw [height_append]
    rfl
  fires := by
    intro offset name flags argc hmem
    obtain ⟨p, ⟨i, a⟩, r, rfl, rfl, hi, -⟩ := h.exists_of_mem hmem
    cases i <;> cases hi
    obtain ⟨b, hmoves, hheight⟩ := h.height_behind (by simp [Symbolic.exits])
    cases hmoves
    exact hheight
  drops := by
    intro before y offset after hsplit hjump
    obtain ⟨p, x, r, rfl, -, rfl, hr⟩ := exists_of_placed hsplit
    cases r with
    | nil => cases hr
    | cons z r =>
      rw [placed, List.cons.injEq] at hr
      obtain ⟨hoffset, hpop⟩ := Prod.mk.inj hr.1
      have hz : z.1 = .pop := by
        obtain ⟨i, a⟩ := z
        cases i <;> cases hpop
        rfl
      rw [← hoffset, Nat.zero_add]
      exact h.height_dropped (Symbolic.isJump_of_target? hjump) hz

/-- Code that leaves no operands has a layout once the instruction that ends it is added. -/
theorem of_flows {code : List Symbolic} (hflows : Flows code [] [])
    (hholds : Holds chunk 0 (code ++ [.ret])) (hsize : chunk.size = codeSize (code ++ [.ret]))
    (hnames : ∀ i ∈ code, i.Names states) : ∃ l, LaidOut states l chunk := by
  obtain ⟨-, body, rfl, hstart, hvalid, hclears⟩ := hflows
  have hcode : Layout.code (body ++ [(.ret, [])]) = Layout.code body ++ [.ret] := code_append ..
  refine ⟨body ++ [(.ret, [])], ?_, ?_, ?_, ?_, ?_, ?_, body, rfl⟩
  · rwa [hcode]
  · rwa [hcode]
  · intro i hi
    rw [hcode, List.mem_append, List.mem_singleton] at hi
    rcases hi with hi | rfl
    · exact hnames i hi
    · trivial
  · rw [start_append]
    exact hstart
  · intro p x r hsplit
    rcases List.eq_nil_or_concat r with rfl | ⟨r, z, rfl⟩
    · obtain ⟨rfl, hx⟩ := List.append_inj' hsplit rfl
      obtain rfl : (Symbolic.ret, ([] : Shape)) = x := List.singleton_inj.1 hx
      exact ⟨[], .ret, fun d hd => by cases hd⟩
    · rw [List.concat_eq_append, ← List.cons_append, ← List.append_assoc] at hsplit
      obtain ⟨rfl, hz⟩ := List.append_inj' hsplit rfl
      obtain rfl : (Symbolic.ret, ([] : Shape)) = z := List.singleton_inj.1 hz
      cases Valid.suffix hvalid with
      | @cons _ _ b _ moves exits _ =>
        refine ⟨b, moves, fun d hd => ?_⟩
        obtain ⟨passed, rest, rfl, hpassed, hrest⟩ := exits d hd
        cases rest with
        | nil => exact ⟨passed, (.ret, []), [], by simp, hpassed, hrest⟩
        | cons y rest => exact ⟨passed, y, rest ++ [(.ret, [])], by simp, hpassed, hrest⟩
  · exact hclears.append (.singleton _) fun x _ y hy => by
      obtain rfl : (Symbolic.ret, ([] : Shape)) = y := Option.some.inj hy
      exact .of_ne (by simp)

end LaidOut

end EntityScript.Grammar
