import StateMerging.Command.Session

/-!
# The command line program

Plays a session at the terminal: its file is read, its pieces are printed as they come, and a line
of the input is waited for when the session asks for it.
-/

namespace StateMerging

open Command

/-- The reason behind an error of the file system. -/
def readFailure : IO.Error → ReadFailure
  | .permissionDenied .. => .permissionDenied
  | .inappropriateType _ 21 _ => .isDirectory
  | .inappropriateType .. => .notDirectory
  | .invalidArgument .. => .nameTooLong
  | _ => .notFound

def readFile (path : String) : IO (Except ReadFailure Text.LineStream) := do
  try return .ok (.ofBytes (← IO.FS.readBinFile path))
  catch e => return .error (readFailure e)

/-- An input that is read a line at a time. -/
structure Terminal where
  input : IO.FS.Stream

/-- Waits for a line, or for the end of the input. -/
def Terminal.next (t : Terminal) : IO Text.Arrival := do
  let mut bytes := ByteArray.empty
  repeat
    let byte ← t.input.read 1
    bytes := bytes ++ byte
    if byte.isEmpty || byte.toList = [10] then break
  return (Text.LineStream.ofBytes bytes).arrivals.headD .ending

instance : ForIn IO Terminal Text.Arrival where
  forIn t b f := do
    let mut b := b
    repeat
      match ← f (← t.next) b with
      | .done c => return c
      | .yield c => b := c
    return b

/-- Prints a piece at once. -/
def printAtOnce (piece : String) : IO PUnit := do
  let output ← IO.getStdout
  output.putStr piece
  output.flush

/-- Runs a session at the terminal; the exit code. -/
def runSession (o : Options) : IO UInt32 := do
  let file ← match o.file with
    | some path => readFile path
    | none => pure (.error .notFound)
  match ← Session.play printAtOnce o file (Terminal.mk (← IO.getStdin)) with
  | none => return 0
  | some f =>
    IO.eprintln f.message
    return 1

end StateMerging

/-- Runs the session that the arguments ask for. -/
def main (args : List String) : IO UInt32 := do
  match StateMerging.Command.Options.parse args with
  | .error e =>
    IO.eprintln ("error: " ++ e.message)
    return 2
  | .ok o => StateMerging.runSession o
