/-
# What integer instructions compute

A register holds a word: as many bits as its type has. Instructions on integers act on words as two's complement says;
a division by zero, a quotient that does not fit and a shift by the whole width have no result. Run one after the
other, instructions put their results into the registers that the builder numbers them with.
-/
import BasicCompiler.Ir.Builder

namespace BasicCompiler.Ir

structure Word where
  width : Nat
  bits : BitVec width

/-- What registers or slots hold, as far as it is known. -/
def Words := Reg → Option Word

def Words.set (regs : Words) (r : Reg) (word : Word) : Words := fun q => if q = r then some word else regs q

def BinaryOpcode.apply (opcode : BinaryOpcode) (x y : BitVec w) : Option (BitVec w) :=
  match opcode with
  | .add => some (x + y)
  | .sub => some (x - y)
  | .mul => some (x * y)
  | .sdiv => if y = 0 ∨ (x.sdiv y).toInt ≠ x.toInt.tdiv y.toInt then none else some (x.sdiv y)
  | .srem => if y = 0 ∨ (x.sdiv y).toInt ≠ x.toInt.tdiv y.toInt then none else some (x.srem y)
  | .udiv => if y = 0 then none else some (x / y)
  | .urem => if y = 0 then none else some (x % y)
  | .and => some (x &&& y)
  | .or => some (x ||| y)
  | .xor => some (x ^^^ y)
  | .shl => if y.toNat < w then some (x <<< y.toNat) else none
  | .ashr => if y.toNat < w then some (x.sshiftRight y.toNat) else none
  | .lshr => if y.toNat < w then some (x >>> y.toNat) else none
  | .fadd | .fsub | .fmul | .fdiv | .frem => none

def UnaryOpcode.apply (opcode : UnaryOpcode) (x : BitVec w) : Option (BitVec w) :=
  match opcode with
  | .neg => some (-x)
  | .not => some (~~~x)
  | .fneg => none

def Predicate.holds (predicate : Predicate) (x y : BitVec w) : Bool :=
  match predicate with
  | .eq => x == y
  | .ne => x != y
  | .slt => x.slt y
  | .sle => x.sle y
  | .sgt => y.slt x
  | .sge => y.sle x
  | .ult => x.ult y
  | .ule => x.ule y
  | .ugt => y.ult x
  | .uge => y.ule x

def Cast.apply (cast : Cast) (x : BitVec w) (v : Nat) : Option (BitVec v) :=
  match cast with
  | .sext => if w < v then some (x.signExtend v) else none
  | .zext => if w < v then some (x.setWidth v) else none
  | .trunc => if v < w then some (x.setWidth v) else none
  | _ => none

def Op.word? (memory regs : Words) : Op → Option Word
  | .const (.int value) type => some ⟨type.intBits, .ofInt _ value.toInt⟩
  | .const (.bool value) _ => some ⟨1, .ofBool value⟩
  | .const .zero type => some ⟨type.intBits, 0⟩
  | .load address type => (memory address).filter fun word => word.width = type.intBits
  | .binary opcode l r => do
      let ⟨w, x⟩ ← regs l
      let ⟨v, y⟩ ← regs r
      if h : v = w then (opcode.apply x (y.cast h)).map (⟨w, ·⟩) else none
  | .icmp predicate l r => do
      let ⟨w, x⟩ ← regs l
      let ⟨v, y⟩ ← regs r
      if h : v = w then some ⟨1, .ofBool (predicate.holds x (y.cast h))⟩ else none
  | .unary opcode r => do
      let ⟨w, x⟩ ← regs r
      (opcode.apply x).map (⟨w, ·⟩)
  | .cast kind r type => do
      let ⟨_, x⟩ ← regs r
      (kind.apply x type.intBits).map (⟨type.intBits, ·⟩)
  | _ => none

variable {y : BitVec w}

theorem word_binary (opcode : BinaryOpcode) (left : regs l = some ⟨w, x⟩) (right : regs r = some ⟨w, y⟩) :
    (Op.binary opcode l r).word? memory regs = (opcode.apply x y).map (⟨w, ·⟩) := by
  simp [Op.word?, left, right]

theorem word_icmp (predicate : Predicate) (left : regs l = some ⟨w, x⟩) (right : regs r = some ⟨w, y⟩) :
    (Op.icmp predicate l r).word? memory regs = some ⟨1, .ofBool (predicate.holds x y)⟩ := by
  simp [Op.word?, left, right]

theorem word_unary (opcode : UnaryOpcode) (operand : regs r = some ⟨w, x⟩) :
    (Op.unary opcode r).word? memory regs = (opcode.apply x).map (⟨w, ·⟩) := by
  simp [Op.word?, operand]

theorem word_cast (kind : Cast) (type : Ty) (operand : regs r = some ⟨w, x⟩) :
    (Op.cast kind r type).word? memory regs = (kind.apply x type.intBits).map (⟨type.intBits, ·⟩) := by
  simp [Op.word?, operand]

/-- Instructions one after the other; `r` is the register of the first. -/
def runOps (memory : Words) : List Op → Reg → Words → Option Words
  | [], _, regs => some regs
  | op :: rest, r, regs => do
      let word ← op.word? memory regs
      runOps memory rest (r + 1) (regs.set r word)

theorem runOps_append (run : runOps memory front r regs = some regs') :
    runOps memory (front ++ rest) r regs = runOps memory rest (r + front.length) regs' := by
  induction front generalizing r regs with
  | nil =>
    cases run
    rfl
  | cons op front ih =>
    obtain ⟨word, computed, run⟩ := Option.bind_eq_some_iff.mp run
    have first : runOps memory (op :: (front ++ rest)) r regs =
        runOps memory (front ++ rest) (r + 1) (regs.set r word) := by
      rw [runOps, computed]
      rfl
    rw [List.cons_append, first, ih run, List.length_cons, Nat.add_comm front.length, Nat.add_assoc]

/-- Adds instructions one after the other. -/
def Builder.emitAll (b : Builder) (ops : List Op) : Builder := ops.foldl (fun b op => (b.emit op).2) b

theorem Builder.emitAll_nextReg (b : Builder) (ops : List Op) : (b.emitAll ops).nextReg = b.nextReg + ops.length := by
  induction ops generalizing b with
  | nil => rfl
  | cons op rest ih =>
    change ((b.emit op).2.emitAll rest).nextReg = _
    rw [ih, List.length_cons, Nat.add_comm rest.length, ← Nat.add_assoc]
    rfl

def numbered : Reg → List Op → List Instr
  | _, [] => []
  | r, op :: rest => ⟨some r, op⟩ :: numbered (r + 1) rest

theorem Builder.emitAll_eq (b : Builder) (ops : List Op) :
    b.emitAll ops = { b with
      nextReg := b.nextReg + ops.length
      block := b.block.map fun block => { block with instrs := block.instrs ++ numbered b.nextReg ops } } := by
  induction ops generalizing b with
  | nil =>
    obtain ⟨nextReg, nextBlock, nextString, module, function, _ | block, slotCount, labels⟩ := b <;>
      simp [emitAll, numbered]
  | cons op rest ih =>
    change (b.emit op).2.emitAll rest = _
    rw [ih]
    obtain ⟨nextReg, nextBlock, nextString, module, function, _ | block, slotCount, labels⟩ := b <;>
      simp [emit, freshReg, append, numbered, Nat.add_assoc, Nat.add_comm rest.length]

/-- What registers and globals hold, and the globals whose addresses registers are. -/
structure Store where
  regs : Words
  places : Reg → Option String
  globals : String → Option Word

def Store.empty : Store := ⟨fun _ => none, fun _ => none, fun _ => none⟩

def Instr.run (s : Store) : Instr → Option Store
  | ⟨some r, .global name⟩ => some { s with places := fun q => if q = r then some name else s.places q }
  | ⟨none, .store address value⟩ => do
      let name ← s.places address
      let word ← s.regs value
      return { s with globals := fun g => if g = name then some word else s.globals g }
  | ⟨some r, op⟩ => do return { s with regs := s.regs.set r (← op.word? (fun _ => none) s.regs) }
  | ⟨none, _⟩ => none

/-- What a global holds behind code that finds all globals and registers empty. -/
def held? (instrs : List Instr) (name : String) : Option Word := (instrs.foldlM Instr.run .empty).bind (·.globals name)

end BasicCompiler.Ir
