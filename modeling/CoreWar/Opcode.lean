/-!
# Operation codes

The thirty-two operations of the machine, their six-bit codes, their names and
the form of their operands.  A code without an operation means `nop`, so that
arbitrary bytes can always be executed.
-/

namespace CoreWar

/-- The operation an instruction performs. -/
inductive Opcode where
  | nop | int | mov | swp | add | sub | mul | imul | div | idiv | shl | shr
  | neg | not | and | or | xor | inc | dec | cmp
  | jmp | jg | jge | je | jne | jl | jle | jc | jnc | jo | jno | dat
  deriving DecidableEq, Repr, Inhabited

/-- What an operation asks of its operands. -/
inductive Opcode.Form where
  /-- Nothing happens and no operand is looked at. -/
  | idle
  /-- Execution ends the thread and no operand is looked at. -/
  | halt
  /-- The destination gives the target of a jump. -/
  | jump
  /-- Only the destination is used. -/
  | unary
  /-- Destination and source are used. -/
  | binary
  deriving DecidableEq, Repr

namespace Opcode

/-- All operations in the order of their codes. -/
def all : List Opcode :=
  [.nop, .int, .mov, .swp, .add, .sub, .mul, .imul, .div, .idiv, .shl, .shr,
    .neg, .not, .and, .or, .xor, .inc, .dec, .cmp,
    .jmp, .jg, .jge, .je, .jne, .jl, .jle, .jc, .jnc, .jo, .jno, .dat]

/-- The position of an operation among all of them. -/
def index : Opcode → Fin 32
  | nop => 0 | int => 1 | mov => 2 | swp => 3 | add => 4 | sub => 5
  | mul => 6 | imul => 7 | div => 8 | idiv => 9 | shl => 10 | shr => 11
  | neg => 12 | not => 13 | and => 14 | or => 15 | xor => 16 | inc => 17
  | dec => 18 | cmp => 19 | jmp => 20 | jg => 21 | jge => 22 | je => 23
  | jne => 24 | jl => 25 | jle => 26 | jc => 27 | jnc => 28 | jo => 29
  | jno => 30 | dat => 31

/-- The six-bit code of an operation. -/
def code (op : Opcode) : UInt8 := UInt8.ofNat op.index.val

/-- The operation of the low six bits of a byte. -/
def ofCode (c : UInt8) : Opcode := all.getD (c.toNat % 64) nop

/-- The mnemonic of an operation. -/
def name : Opcode → String
  | nop => "NOP" | int => "INT" | mov => "MOV" | swp => "SWP" | add => "ADD"
  | sub => "SUB" | mul => "MUL" | imul => "IMUL" | div => "DIV"
  | idiv => "IDIV" | shl => "SHL" | shr => "SHR" | neg => "NEG"
  | not => "NOT" | and => "AND" | or => "OR" | xor => "XOR" | inc => "INC"
  | dec => "DEC" | cmp => "CMP" | jmp => "JMP" | jg => "JG" | jge => "JGE"
  | je => "JE" | jne => "JNE" | jl => "JL" | jle => "JLE" | jc => "JC"
  | jnc => "JNC" | jo => "JO" | jno => "JNO" | dat => "DAT"

/-- The operation with the given mnemonic, written in capitals. -/
def ofName? (s : String) : Option Opcode := all.find? (·.name == s)

/-- The form of the operands of an operation. -/
def form : Opcode → Form
  | nop => .idle
  | dat => .halt
  | jmp | jg | jge | je | jne | jl | jle | jc | jnc | jo | jno => .jump
  | mul | imul | div | idiv | neg | not | inc | dec => .unary
  | _ => .binary

/-- The number of operands an operation uses. -/
def arity (op : Opcode) : Nat :=
  match op.form with
  | .idle | .halt => 0
  | .jump | .unary => 1
  | .binary => 2

/-- Whether an operation is a jump, conditional or not. -/
def isJump (op : Opcode) : Bool := op.form == .jump

theorem all_getElem_index (op : Opcode) : all[op.index.val]? = some op := by
  cases op <;> rfl

@[simp] theorem ofCode_code (op : Opcode) : ofCode op.code = op := by
  cases op <;> rfl

theorem index_injective {a b : Opcode} (h : a.index = b.index) : a = b := by
  have ha := all_getElem_index a
  rw [h, all_getElem_index b] at ha
  exact (Option.some.inj ha).symm

theorem arity_le_two (op : Opcode) : op.arity ≤ 2 := by
  cases op <;> decide

@[simp] theorem ofName?_name (op : Opcode) : ofName? op.name = some op := by
  cases op <;> rfl

theorem eq_name_of_ofName? {s : String} {op : Opcode} (h : ofName? s = some op) :
    s = op.name := by
  have hfound := List.find?_some (p := fun o : Opcode => o.name == s) h
  exact (beq_iff_eq.mp hfound).symm

end Opcode
end CoreWar
