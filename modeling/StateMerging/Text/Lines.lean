import StateMerging.Text.Blank

/-!
# Lines

A line ends at a line feed, which may follow a carriage return, or at the end of the text.  Input
arrives as bytes, and a `LineStream` holds its lines up to the first one that is not valid UTF-8.
-/

namespace StateMerging.Text

def chopReturn (l : List Char) : List Char := if l.getLast? = some '\r' then l.dropLast else l

/-- The lines of a text.  What follows the last line feed is a line only if it is not empty, and
keeps a final carriage return. -/
def lines (s : String) : List String :=
  let parts := s.toList.splitOnP (· = '\n')
  let ended := parts.dropLast.map chopReturn
  let rest := (parts.getLast?.toList).filter (· ≠ [])
  (ended ++ rest).map String.ofList

@[simp] theorem lines_empty : lines "" = [] := by simp [lines]

/-- What a reader finds when it asks an input for a line. -/
inductive Arrival
  | line (text : String)
  | ending
  /-- A line that is not valid UTF-8. -/
  | unreadable

/-- The lines of an input up to the first one that is not valid UTF-8, and whether there is none. -/
structure LineStream where
  lines : List String
  readable : Bool
  deriving DecidableEq

namespace LineStream

def arrivals (s : LineStream) : List Arrival :=
  s.lines.map .line ++ [if s.readable then .ending else .unreadable]

def ofText (s : String) : LineStream := ⟨Text.lines s, true⟩

def byteLines (bytes : ByteArray) : List ByteArray :=
  (bytes.toList.splitOnP (· = 10)).map fun l => ⟨l.toArray⟩

def ofBytes (bytes : ByteArray) : LineStream :=
  match String.fromUTF8? bytes with
  | some s => ofText s
  | none =>
    let valid := (byteLines bytes).map String.fromUTF8? |>.takeWhile Option.isSome
    ⟨Text.lines (String.join (valid.map fun l => l.getD "" ++ "\n")), false⟩

theorem ofBytes_of_fromUTF8? {bytes : ByteArray} {s : String}
    (h : String.fromUTF8? bytes = some s) : ofBytes bytes = ofText s := by
  simp [ofBytes, h]

theorem ofBytes_toByteArray (s : String) : ofBytes s.toByteArray = ofText s := by
  refine ofBytes_of_fromUTF8? ?_
  simp [String.fromUTF8?, s.isValidUTF8]
  rfl

end LineStream

end StateMerging.Text
