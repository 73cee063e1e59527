import StateMerging.Text.Lines

/-!
# Files

The ways in which an input cannot be read, and a `FileTree` in which paths lead to lines.

At the terminal the operating system follows a path, and a session is given what it found.
`FileTree.read` stands in for it where there is no file system; no session depends on it.
-/

namespace StateMerging.Command

/-! ## Failures -/

/-- Why an input cannot be read. -/
inductive ReadFailure
  | notFound
  | permissionDenied
  | notDirectory
  | isDirectory
  | nameTooLong
  /-- A line is not valid UTF-8. -/
  | notText
  deriving DecidableEq

def ReadFailure.message : ReadFailure → String
  | notFound => "No such file or directory (os error 2)"
  | permissionDenied => "Permission denied (os error 13)"
  | notDirectory => "Not a directory (os error 20)"
  | isDirectory => "Is a directory (os error 21)"
  | nameTooLong => "File name too long (os error 36)"
  | notText => "stream did not contain valid UTF-8"

/-! ## Trees of files -/

inductive Entry
  | directory
  | file (lines : Text.LineStream)

/-- A tree of files and directories. -/
structure FileTree where
  /-- What the names from the root lead to, if to anything. -/
  entry? : List String → Option Entry
  current : List String

namespace FileTree

def nameLimit : Nat := 255

def pathLimit : Nat := 4095

/-- The place to which a name leads from a place.  One dot stays and two dots go up. -/
def step (t : FileTree) (place : List String) (name : String) :
    Except ReadFailure (List String) :=
  match t.entry? place with
  | none => .error .notFound
  | some (.file _) => .error .notDirectory
  | some .directory =>
    if name = "." then .ok place
    else if name = ".." then .ok place.dropLast
    else if nameLimit < name.utf8ByteSize then .error .nameTooLong
    else if (t.entry? (place ++ [name])).isNone then .error .notFound
    else .ok (place ++ [name])

def follow (t : FileTree) (place : List String) : List String → Except ReadFailure (List String)
  | [] => .ok place
  | name :: names =>
    match t.step place name with
    | .error r => .error r
    | .ok place => t.follow place names

/-- The names in a path.  A slash at its end asks for a directory, as one dot behind it does. -/
def pathNames (path : String) : List String :=
  let names := (path.toList.splitOnP (· = '/')).filter (· ≠ [])
  names.map String.ofList ++ if path.toList.getLast? = some '/' then ["."] else []

/-- The lines of the file to which a path leads.  A path with a slash at its beginning starts at the
root. -/
def read (t : FileTree) (path : String) : Except ReadFailure Text.LineStream :=
  if path = "" then .error .notFound
  else if pathLimit < path.utf8ByteSize then .error .nameTooLong
  else
    let start := if path.toList.head? = some '/' then [] else t.current
    match t.follow start (pathNames path) with
    | .error r => .error r
    | .ok place =>
      match t.entry? place with
      | none => .error .notFound
      | some .directory => .error .isDirectory
      | some (.file lines) => .ok lines

end FileTree

end StateMerging.Command
