import Scriptlet.CommandLine.Command

/-!
# The program

Reads the file or the input, leaves everything else to `CommandLine`, writes what it says, and ends
with its exit code.
-/

namespace Scriptlet.CommandLine

/-- Writes the output and the console text of a step. -/
def write (out err : String) : IO Unit := do
  let stdout ← IO.getStdout
  stdout.putStr out
  stdout.flush
  (← IO.getStderr).putStr err

/-- Whether an error has this number. It may be told with either sign. -/
def means (code number : UInt32) : Bool := code == number || code == 0 - number

/-- What is found at a location of the file system. -/
def readLocation (l : Location) : IO Found := do
  try
    return .bytes (← IO.FS.readBinFile l.text)
  catch
    | .noFileOrDirectory .. => return .missing
    | .inappropriateType _ code _ => return if means code 20 then .blocked else .directory
    | .invalidArgument _ code _ =>
      return if means code 36 then .overlong else .unreadable "Invalid argument"
    | .permissionDenied .. => return .unreadable "Permission denied"
    | e => return .unreadable (toString e)

/-- Answers the lines of the input as they come. -/
partial def converse (host : Host) (t : Talk) : IO Status := do
  write promptText ""
  let line ← (← IO.getStdin).getLine
  if line.isEmpty then
    write "\n" ""
    return .ok
  let line := if line.endsWith "\n" then (line.dropEnd 1).toString else line
  let reply := t.answer host line
  write reply.out reply.err
  match reply.next with
  | .ok t => converse host t
  | .error status => return status

/-- Writes a result. -/
def finish (r : Result) : IO Status := do
  write r.out r.err
  return r.status

/-- Does what the arguments ask for. -/
def perform (args : List String) : IO Status := do
  let host := Host.ticking (Float.ofNat (← IO.monoMsNow))
  match wish args with
  | .error m => finish (misused m)
  | .ok .help => finish ⟨.ok, help, ""⟩
  | .ok (.run q) =>
    match q.program with
    | some program => do
      let l := Location.ofText program
      finish (runFile host q l (← readLocation l))
    | none => converse host (.start q)

end Scriptlet.CommandLine

/-- The command. -/
def main (args : List String) : IO UInt32 := do
  return (← Scriptlet.CommandLine.perform args).code.toUInt32
