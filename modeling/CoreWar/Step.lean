import CoreWar.Alu
import CoreWar.Machine

/-!
# Steps

One step executes the instruction at the instruction pointer.  The length of the
instruction is taken before anything is executed, so an instruction that
rewrites itself still advances by the length it had.  A fault leaves the
instruction pointer where it is.
-/

namespace CoreWar

/-- An outcome with its value forgotten. -/
def Outcome.ignore {α : Type} (o : Outcome α) : Outcome Unit :=
  ⟨o.machine, o.result.map fun _ => ()⟩

namespace Machine

/-- Stores a result in a destination; the flags are set first. -/
def finish (m : Machine) (dst : Storage) (w : Width) (r : Alu.Result) : Outcome Unit :=
  (m.withFlags r.flags).store dst r.value w

/-- Applies an operation to one operand at its own width. -/
def modify (m : Machine) (dst : Storage) (op : Width → UInt16 → Flags → Alu.Result) :
    Outcome Unit :=
  let w := dst.width
  let r := op w (m.value dst) m.thread.flags
  m.finish dst w r

/-- Applies an operation to two operands at their common width. -/
def combine (m : Machine) (dst src : Storage) (op : Width → UInt16 → UInt16 → Alu.Result) :
    Outcome Unit :=
  let w := Storage.operationWidth dst src
  let r := op w (m.read dst w) (m.read src w)
  m.finish dst w r

/-- Shifts a destination by the value of the source at the source's own width. -/
def shift (m : Machine) (dst src : Storage)
    (op : Width → UInt16 → UInt16 → Flags → Alu.Result) : Outcome Unit :=
  let w := Storage.operationWidth dst src
  let r := op w (m.read dst w) (m.value src) m.thread.flags
  m.finish dst w r

/-- Sets the flags of a subtraction and stores nothing. -/
def compare (m : Machine) (dst src : Storage) : Machine :=
  let w := Storage.operationWidth dst src
  let r := Alu.sub w (m.read dst w) (m.read src w)
  m.withFlags r.flags

/-- Multiplies the accumulator by an operand. -/
def multiply (m : Machine) (s : Signedness) (src : Storage) : Machine :=
  let v := m.value src
  let t := m.thread
  m.withThread (Alu.multiply s src.width v t)

/-- Divides the accumulator by an operand. -/
def divide (m : Machine) (s : Signedness) (src : Storage) : Outcome Unit :=
  let v := m.value src
  match Alu.divide? s src.width v m.thread with
  | some t => ⟨m.withThread t, .ok ()⟩
  | none => ⟨m, .error .divideByZero⟩

/-- Executes an operation of one operand. -/
def applyUnary (m : Machine) (op : Opcode) (a : Storage) : Outcome Unit :=
  match op with
  | .mul => ⟨m.multiply .unsigned a, .ok ()⟩
  | .imul => ⟨m.multiply .signed a, .ok ()⟩
  | .div => m.divide .unsigned a
  | .idiv => m.divide .signed a
  | .neg => m.modify a fun w v _ => Alu.neg w v
  | .not => m.modify a fun _ v f => ⟨~~~v, f⟩
  | .inc => m.modify a Alu.inc
  | .dec => m.modify a Alu.dec
  | _ => ⟨m, .ok ()⟩

/-- Executes an operation of two operands; `int` is reserved and does
nothing. -/
def applyBinary (m : Machine) (op : Opcode) (a b : Storage) : Outcome Unit :=
  match op with
  | .mov => (m.copy a b).ignore
  | .swp => m.swap a b
  | .add => m.combine a b Alu.add
  | .sub => m.combine a b Alu.sub
  | .cmp => ⟨m.compare a b, .ok ()⟩
  | .and => m.combine a b (Alu.logic (· &&& ·))
  | .or => m.combine a b (Alu.logic (· ||| ·))
  | .xor => m.combine a b (Alu.logic (· ^^^ ·))
  | .shl => m.shift a b Alu.shl
  | .shr => m.shift a b Alu.shr
  | _ => ⟨m, .ok ()⟩

/-- Moves the instruction pointer to the target of a jump. -/
def jump (m : Machine) (mode : AccessMode) (target : UInt16) : Machine :=
  match m with
  | ⟨t, a, pid⟩ => ⟨{ t with ip := mode.address t.ip target }, a, pid⟩

/-- Moves the instruction pointer past an instruction of the given length. -/
def advance (m : Machine) (n : UInt16) : Machine :=
  match m with
  | ⟨t, a, pid⟩ => ⟨t.advance n, a, pid⟩

/-- Executes an instruction and tells whether it jumped. -/
def execute (m : Machine) (i : Instruction) : Outcome Bool :=
  match i.opcode.form with
  | .idle => ⟨m, .ok false⟩
  | .halt => ⟨m, .error .dataExecuted⟩
  | .jump =>
    match m.storage i .destination with
    | .error e => ⟨m, .error e⟩
    | .ok a =>
      let target := m.value a
      if i.opcode.isTaken m.thread.flags then
        ⟨m.jump i.dstMode target, .ok true⟩
      else
        ⟨m, .ok false⟩
  | .unary =>
    match m.storage i .destination with
    | .error e => ⟨m, .error e⟩
    | .ok a =>
      match m.applyUnary i.opcode a with
      | ⟨m, r⟩ => ⟨m, r.map fun _ => false⟩
  | .binary =>
    match m.storage i .destination with
    | .error e => ⟨m, .error e⟩
    | .ok a =>
      match m.storage i .source with
      | .error e => ⟨m, .error e⟩
      | .ok b =>
        match m.applyBinary i.opcode a b with
        | ⟨m, r⟩ => ⟨m, r.map fun _ => false⟩

/-- Executes the instruction at the instruction pointer and gives it back. -/
def step (m : Machine) : Outcome Instruction :=
  let i := m.arena.decode m.thread.ip
  match m.execute i with
  | ⟨m, .error e⟩ => ⟨m, .error e⟩
  | ⟨m, .ok true⟩ => ⟨m, .ok i⟩
  | ⟨m, .ok false⟩ => ⟨m.advance i.size, .ok i⟩

end Machine
end CoreWar
