import CoreWar.Arena.Dump
import CoreWar.CommandLine.Arguments
import CoreWar.Listing
import CoreWar.Match.Placement
import CoreWar.Match.Report
import CoreWar.Match.Session
import CoreWar.Random.ChaCha

/-!
# The command line

A command reads at most one file and answers with a text to print and, if a log
was asked for, a file to create before anything is printed.  `invoke` shows what
becomes of arguments, wherever files are read from and created: exit code 2
stands for arguments that cannot be understood, exit code 1 for a command that
failed, exit code 101 for one that was cut short by an overflow.
-/

namespace CoreWar
namespace CommandLine

/-- What a command answers with. -/
structure Response where
  /-- The text to print. -/
  output : String
  /-- A file to create first: its path and its text. -/
  file? : Option (String × String) := none

/-- The name and the number of the program. -/
def versionText : String := "corevm 0.1.0\n"

/-- How the program is used. -/
def helpText : String :=
  "usage: corevm run CONFIG [--log FILE] [--seed N]\n"
    ++ "       corevm dump CONFIG [--seed N]\n"
    ++ "       corevm asm SOURCE\n"
    ++ "       corevm disasm BASE64\n"
    ++ "       corevm --version\n"

namespace Command

/-- The file that a command reads. -/
def source? : Command → Option String
  | run config _ _ | dump config _ => some config
  | assemble source => some source
  | disassemble _ | version | help => none

end Command

/-- The game that a configuration describes, placed from a seed, if one is given
or configured, and by chance otherwise. -/
def loadGame (text : String) (seed : Option UInt64) (chance : UInt64) : Except String Game := do
  let c ← (Configuration.ofText text).mapError Configuration.Error.message
  let seed := (seed.or c.seed).getD chance
  (c.newGame (Random.ChaCha.ofSeed seed)).mapError MatchError.message

/-- The text of the events of a match. -/
def eventsText (events : List Event) : String := String.ofList (EventLog.textOf events)

/-- What a command answers when its file has the given text. -/
def respond (c : Command) (text : String) (chance : UInt64) :
    Except (Assembly.Stop String) Response :=
  match c with
  | .run _ log seed => do
    let game ← (loadGame text seed chance).mapError .fault
    let played := game.play none
    let report ← played.result.mapError fun e => .fault e.message
    let events := eventsText played.events
    return match log with
      | some path => ⟨report.text, some (path, events)⟩
      | none => ⟨events ++ report.text, none⟩
  | .dump _ seed => do
    let game ← (loadGame text seed chance).mapError .fault
    return ⟨game.arena.dump, none⟩
  | .assemble _ => do
    let program ← (CoreWar.assemble text).mapError (.map Assembly.Error.message)
    return ⟨String.ofList (Base64.encode program) ++ "\n", none⟩
  | .disassemble program =>
    match Base64.decode? (Text.trim program.toList) with
    | some program => .ok ⟨CoreWar.disassemble program, none⟩
    | none => .error (.fault "invalid base64")
  | .version => .ok ⟨versionText, none⟩
  | .help => .ok ⟨helpText, none⟩

/-- What files are read and created with.  Where it fails, it says why. -/
structure Files (m : Type → Type) where
  /-- The text of the file at a path. -/
  read : String → m (Except String String)
  /-- Creates a file at a path, with a text. -/
  create : String → String → m (Except String Unit)

/-- The wording for a file that cannot be read. -/
def readError (path reason : String) : String := s!"failed to read {path}: {reason}"

/-- The wording for a file that cannot be created. -/
def createError (path reason : String) : String := s!"failed to create {path}: {reason}"

/-- What becomes of a use of the program. -/
structure Invocation where
  code : UInt32
  output : String := ""
  /-- What is reported as an error. -/
  error? : Option String := none

namespace Invocation

/-- A use that failed with an error. -/
def failed (code : UInt32) (message : String) : Invocation :=
  { code, error? := some s!"error: {message}" }

/-- A use whose command gave no answer. -/
def stopped : Assembly.Stop String → Invocation
  | .overflow => { code := 101, error? := some "attempt to negate with overflow" }
  | .fault message => failed 1 message

end Invocation

section Files

variable {m : Type → Type} [Monad m]

/-- Carries out a command. -/
def execute (files : Files m) (c : Command) (chance : UInt64) : m Invocation := do
  let text ←
    match c.source? with
    | some path =>
      match ← files.read path with
      | .ok text => pure text
      | .error reason => return .failed 1 (readError path reason)
    | none => pure ""
  match respond c text chance with
  | .error stop => return .stopped stop
  | .ok response =>
    if let some (path, text) := response.file? then
      if let .error reason ← files.create path text then
        return .failed 1 (createError path reason)
    return { code := 0, output := response.output }

/-- Does what arguments ask for. -/
def invoke (files : Files m) (args : List String) (chance : UInt64) : m Invocation :=
  match Command.ofArguments args with
  | .error e => return .failed 2 e.message
  | .ok c => execute files c chance

end Files

end CommandLine
end CoreWar
