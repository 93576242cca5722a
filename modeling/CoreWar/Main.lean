import CoreWar.CommandLine

/-!
# The program

Does what the arguments ask for, with the files of the system.
-/

open CoreWar.CommandLine

/-- How the system words the error behind a failed action. -/
def reasonOf : IO.Error → String
  | .noFileOrDirectory .. => "No such file or directory (os error 2)"
  | .permissionDenied .. => "Permission denied (os error 13)"
  | e@(.inappropriateType _ code _) =>
    if code = 20 then "Not a directory (os error 20)"
    else if code = 21 then "Is a directory (os error 21)"
    else toString e
  | e@(.invalidArgument _ code _) =>
    if code = 36 then "File name too long (os error 36)" else toString e
  | e => toString e

/-- The text of a file. -/
def readText (path : String) : IO (Except String String) := do
  try
    let bytes ← IO.FS.readBinFile path
    return match String.fromUTF8? bytes with
      | some text => .ok text
      | none => .error "stream did not contain valid UTF-8"
  catch e => return .error (reasonOf e)

/-- Creates a file with a text. -/
def writeText (path text : String) : IO (Except String Unit) := do
  try
    IO.FS.writeFile path text
    return .ok ()
  catch e => return .error (reasonOf e)

/-- A word by chance. -/
def chanceWord : IO UInt64 := do
  let bytes ← IO.getRandomBytes 8
  return bytes.toList.foldl (fun n b => n * 256 + b.toUInt64) 0

def main (args : List String) : IO UInt32 := do
  let i ← invoke ⟨readText, writeText⟩ args (← chanceWord)
  if let some message := i.error? then
    IO.eprintln message
  IO.print i.output
  return i.code
