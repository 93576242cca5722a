import CoreWar.Json.Number

/-!
# Arguments of the command line

The first word names a command, the second what the command is applied to.
Options may stand anywhere behind the command; their values follow them, as an
argument of their own or as a part of the same one.  Letters of options may
share an argument.  Behind `--` every argument is a word.  The word `help` in the place
of a command may be followed by the one command that help is asked for.

An option with a value may be given once, and so may a flag, but the flag that
every command knows may be given once before the command and once behind it.
-/

namespace CoreWar
namespace CommandLine

/-- What the program is asked to do. -/
inductive Command where
  /-- Play a match and show its events and results. -/
  | run (config : String) (log : Option String) (seed : Option UInt64)
  /-- Show the arena before a match. -/
  | dump (config : String) (seed : Option UInt64)
  /-- Assemble a file. -/
  | assemble (source : String)
  /-- List a program that is given in base64. -/
  | disassemble (program : String)
  | version
  | help
  deriving DecidableEq, Repr

/-- The name of a command. -/
inductive Name where
  | run | dump | asm | disasm
  deriving DecidableEq, Repr

/-- An option. -/
inductive Key where
  | verbose | version | help | log | seed
  deriving DecidableEq, Repr

/-- Why arguments cannot be understood. -/
inductive UsageError where
  | noCommand
  | unknownCommand (word : String)
  | unknownOption (argument : String)
  | repeated (option : String)
  | noValue (option : String)
  | uselessValue (option : String)
  | badSeed (value : String)
  | unexpected (word : String)
  | noOperand
  deriving DecidableEq, Repr

/-- The wording of a usage error. -/
def UsageError.message : UsageError → String
  | noCommand => "a command is required"
  | unknownCommand word => s!"unknown command '{word}'"
  | unknownOption argument => s!"unexpected option '{argument}'"
  | repeated option => s!"option '--{option}' is given more than once"
  | noValue option => s!"option '--{option}' needs a value"
  | uselessValue option => s!"option '--{option}' takes no value"
  | badSeed value => s!"invalid seed '{value}'"
  | unexpected word => s!"unexpected argument '{word}'"
  | noOperand => "an argument is missing"

namespace Name

/-- The command of a name. -/
def ofWord? : String → Option Name
  | "run" => some run
  | "dump" => some dump
  | "asm" => some asm
  | "disasm" => some disasm
  | _ => none

end Name

namespace Key

/-- The long name of an option. -/
def name : Key → String
  | verbose => "verbose"
  | version => "version"
  | help => "help"
  | log => "log"
  | seed => "seed"

/-- The letter of an option. -/
def letter : Key → Char
  | verbose => 'v'
  | version => 'V'
  | help => 'h'
  | log => 'l'
  | seed => 's'

/-- Every option. -/
def all : List Key := [verbose, version, help, log, seed]

/-- Whether an option has a value. -/
def hasValue : Key → Bool
  | log | seed => true
  | verbose | version | help => false

/-- Whether an option may stand behind a command, or before any. -/
def isKnown : Option Name → Key → Bool
  | _, verbose | _, help => true
  | none, version => true
  | some .run, log => true
  | some .run, seed | some .dump, seed => true
  | _, _ => false

end Key

/-- What the arguments so far say. -/
structure Reading where
  command : Option Name := none
  operand : Option String := none
  log : Option String := none
  seed : Option UInt64 := none
  /-- Whether the flag has been given on this side of the command. -/
  verbose : Bool := false
  /-- The option whose value comes next. -/
  pending : Option Key := none
  /-- Whether only words can follow. -/
  literal : Bool := false

/-- Why reading stops early. -/
inductive Stop where
  | error (e : UsageError)
  /-- An option that is a command of its own. -/
  | command (c : Command)

/-- The seed that a text spells: decimal digits below `2 ^ 64`, perhaps after a
plus sign. -/
def seed? (text : String) : Option UInt64 :=
  let digits :=
    match text.toList with
    | '+' :: ds => ds
    | ds => ds
  if digits.isEmpty || !digits.all Char.isDigit then
    none
  else
    let n := Json.Numeral.ofDigits (digits.map Json.Numeral.digit)
    if n < UInt64.size then some n.toUInt64 else none

/-- What comes of asking for help on the commands with given names.  No command
has commands of its own. -/
def helpOn : List String → Stop
  | [] => .command .help
  | w :: ws =>
    if (Name.ofWord? w).isNone && w ≠ "help" then
      .error (.unknownCommand w)
    else
      match ws with
      | [] => .command .help
      | w :: _ => .error (.unknownCommand w)

namespace Reading

/-- Takes a word that belongs to no option. -/
def word (r : Reading) (w : String) : Except Stop Reading :=
  match r.command with
  | none =>
    match Name.ofWord? w with
    | some name =>
      if r.literal then
        .error (.error (.unexpected w))
      else
        .ok { r with command := some name, verbose := false }
    | none => .error (.error (.unknownCommand w))
  | some _ =>
    if r.operand.isSome then
      .error (.error (.unexpected w))
    else
      .ok { r with operand := some w }

/-- Takes the value of an option. -/
def value (r : Reading) (k : Key) (v : String) : Except Stop Reading :=
  match k with
  | .log =>
    if r.log.isSome then
      .error (.error (.repeated k.name))
    else
      .ok { r with log := some v, pending := none }
  | .seed =>
    match seed? v with
    | none => .error (.error (.badSeed v))
    | some n =>
      if r.seed.isSome then
        .error (.error (.repeated k.name))
      else
        .ok { r with seed := some n, pending := none }
  | _ => .error (.error (.uselessValue k.name))

/-- Takes an option that stands without a value. -/
def option (r : Reading) (k : Key) : Except Stop Reading :=
  match k with
  | .verbose =>
    if r.verbose then
      .error (.error (.repeated k.name))
    else
      .ok { r with verbose := true }
  | .version => .error (.command .version)
  | .help => .error (.command .help)
  | .log | .seed => .ok { r with pending := some k }

/-- Takes the letters of options that share an argument. -/
def letters (r : Reading) (argument : String) : List Char → Except Stop Reading
  | [] => .ok r
  | c :: cs =>
    match Key.all.find? fun k => k.letter == c && k.isKnown r.command with
    | none => .error (.error (.unknownOption argument))
    | some k =>
      if k.hasValue && !cs.isEmpty then
        r.value k (String.ofList (if cs.head? = some '=' then cs.tail else cs))
      else
        match r.option k with
        | .ok r => r.letters argument cs
        | .error e => .error e

/-- Takes an option by its long name, with a value if there is an equals
sign. -/
def long (r : Reading) (argument : String) (text : List Char) : Except Stop Reading :=
  let name := String.ofList (text.takeWhile (· ≠ '='))
  match Key.all.find? fun k => k.name == name && k.isKnown r.command with
  | none => .error (.error (.unknownOption argument))
  | some k =>
    match text.dropWhile (· ≠ '=') with
    | _ :: v => r.value k (String.ofList v)
    | [] => r.option k

/-- Takes an argument. -/
def argument (r : Reading) (a : String) : Except Stop Reading :=
  if r.literal then
    r.word a
  else
    match r.pending, a.toList with
    | some k, '-' :: _ :: _ => .error (.error (.noValue k.name))
    | some k, _ => r.value k a
    | none, ['-', '-'] => .ok { r with literal := true }
    | none, '-' :: '-' :: cs => r.long a cs
    | none, '-' :: c :: cs => r.letters a (c :: cs)
    | none, _ => r.word a

/-- Whether an argument asks for help in the place of a command. -/
def asksHelp (r : Reading) (a : String) : Bool := r.command.isNone && !r.literal && a = "help"

/-- Takes arguments one after the other. -/
def arguments (r : Reading) : List String → Except Stop Reading
  | [] => .ok r
  | a :: as =>
    if r.asksHelp a then
      .error (helpOn as)
    else
      match r.argument a with
      | .ok r => r.arguments as
      | .error e => .error e

/-- The command that complete arguments name. -/
def command? (r : Reading) : Except UsageError Command :=
  match r.pending, r.command, r.operand with
  | some k, _, _ => .error (.noValue k.name)
  | none, none, _ => .error .noCommand
  | none, some _, none => .error .noOperand
  | none, some .run, some w => .ok (.run w r.log r.seed)
  | none, some .dump, some w => .ok (.dump w r.seed)
  | none, some .asm, some w => .ok (.assemble w)
  | none, some .disasm, some w => .ok (.disassemble w)

end Reading

/-- The command that arguments name. -/
def Command.ofArguments (args : List String) : Except UsageError Command :=
  match Reading.arguments {} args with
  | .ok r => r.command?
  | .error (.error e) => .error e
  | .error (.command c) => .ok c

end CommandLine
end CoreWar
