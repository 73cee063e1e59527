import StateMerging.Text.Segment

/-!
# Graphic rendition

A control sequence that ends in m sets the rendition of what is shown behind it.  Its parameters are
codes: an attribute starts with some codes and ends with another, and code 0 ends all of them.
`Rendition.carry` ends the rendition at the end of each line and starts it anew in the next one.
-/

namespace StateMerging.Text

/-! ## Attributes -/

structure Attribute where
  /-- A rendition has one attribute at a place, and starts them in the order of their places. -/
  place : Nat
  codes : List Nat
  /-- The code that is written to end the attribute. -/
  ending : Nat
  deriving DecidableEq

namespace Attribute

def fontPlace : Nat := 10

def frakturPlace : Nat := 20

def endings : List Nat := [10, 22, 23, 24, 25, 27, 28, 29, 39, 49, 50, 54, 55, 65, 59, 75]

/-- The place of the attribute that a code starts, and the code that is written to end it. -/
def placeEnding? (code : Nat) : Option (Nat × Nat) :=
  if 1 ≤ code && code ≤ 2 then some (code, 22)
  else if code = 3 || code = 20 then some (code, 23)
  else if code = 4 || code = 21 then some (code, 24)
  else if 5 ≤ code && code ≤ 6 then some (code, 25)
  else if 7 ≤ code && code ≤ 9 then some (code, code + 20)
  else if 11 ≤ code && code ≤ 19 then some (fontPlace, 10)
  else if code = 26 then some (code, 50)
  else if (30 ≤ code && code ≤ 38) || (90 ≤ code && code ≤ 97) then some (30, 39)
  else if (40 ≤ code && code ≤ 48) || (100 ≤ code && code ≤ 107) then some (40, 49)
  else if 51 ≤ code && code ≤ 52 then some (code, 54)
  else if code = 53 then some (code, 55)
  else if code = 58 then some (50, 59)
  else if 60 ≤ code && code ≤ 64 then some (code, 65)
  else if 73 ≤ code && code ≤ 74 then some (code, 75)
  else none

def ofCodes? (codes : List Nat) : Option Attribute := do
  let (place, ending) ← placeEnding? (← codes.head?)
  pure ⟨place, codes, ending⟩

/-- Whether a code in a text ends an attribute.  Fraktur lasts until code 0. -/
def isEndedBy (a : Attribute) (code : Nat) : Bool := a.ending = code && a.place ≠ frakturPlace

def insert (a : Attribute) : List Attribute → List Attribute
  | [] => [a]
  | b :: bs =>
    if a.place < b.place then a :: b :: bs
    else if a.place = b.place then a :: bs
    else b :: insert a bs

end Attribute

/-! ## Sequences that set the rendition -/

def renditionSequence (codes : List Nat) : List Char :=
  escape :: '[' :: (";".intercalate (codes.map toString)).toList ++ ['m']

def digitsNumber (digits : List Char) : Nat :=
  digits.foldl (fun n c => 10 * n + (c.toNat - 48)) 0

/-- The parts of a sequence that sets the rendition, which semicolons separate.  All that the
sequence holds between its bracket and its last character counts; a sequence of which the beginning
is shown is a single part. -/
def renditionParts (sequence : List Char) : List (List Char) :=
  match sequence with
  | '\x1b' :: '[' :: body => body.dropLast.splitOnP (· = ';')
  | _ => [sequence]

inductive Change
  | reset
  | start (a : Attribute)
  | finish (code : Nat)
  | unknown
  deriving DecidableEq

namespace Change

def ofCodes (codes : List Nat) : Change :=
  match Attribute.ofCodes? codes, codes with
  | some a, _ => .start a
  | none, [0] => .reset
  | none, [n] => if n ∈ Attribute.endings then .finish n else .unknown
  | none, _ => .unknown

/-- What the code of a part does.  A code has no zeros in front. -/
def ofPart (part : List Char) : Change :=
  let n := digitsNumber part
  if part = (toString n).toList then ofCodes [n] else .unknown

/-- A component of a colour, with or without a plus sign; what is no number up to 255 stands for
zero. -/
def component (part : List Char) : Nat :=
  let digits := if part.head? = some '+' then part.tail else part
  let n := digitsNumber digits
  if digits.all Char.isDigit && n < 256 then n else 0

def colorCode? (part : List Char) : Option Nat :=
  [38, 48, 58].find? fun n => part = (toString n).toList

/-- What the parts of a sequence do.  A code for a colour takes the index of the colour, or its red,
green and blue, with it.  A colour that is none of these is left out, and an unfinished one takes
all that is left. -/
def ofParts : List (List Char) → List Change
  | [] => []
  | part :: rest =>
    match colorCode? part with
    | none => ofPart part :: ofParts rest
    | some n =>
      match rest with
      | [] => []
      | ['5'] :: i :: rest => ofCodes [n, 5, component i] :: ofParts rest
      | ['2'] :: r :: g :: b :: rest =>
        ofCodes [n, 2, component r, component g, component b] :: ofParts rest
      | mode :: rest => if mode = ['5'] || mode = ['2'] then [] else ofParts rest

end Change

/-! ## Renditions -/

structure Rendition where
  attributes : List Attribute
  reset : Bool
  /-- Whether there was a code without a meaning since. -/
  unknown : Bool
  deriving DecidableEq

namespace Rendition

def plain : Rendition := ⟨[], false, false⟩

def obey (r : Rendition) : Change → Rendition
  | .reset => ⟨[], true, false⟩
  | .start a => { r with attributes := a.insert r.attributes }
  | .finish code => { r with attributes := r.attributes.filter fun a => !a.isEndedBy code }
  | .unknown => { r with unknown := true }

def pass (r : Rendition) (s : Segment) : Rendition :=
  if s.kind = some .rendition then (Change.ofParts (renditionParts s.sequence)).foldl obey r else r

def after (r : Rendition) (cs : List Char) : Rendition := (segments cs).foldl pass r

/-- Whether a rendition matters to a line.  A font alone does not, and neither does a code without a
meaning, unless all attributes were ended before it. -/
def isNotable (r : Rendition) : Bool :=
  r.attributes.any (·.place ≠ Attribute.fontPlace) || (r.reset && r.unknown)

def opening (r : Rendition) : List Char :=
  if r.isNotable then r.attributes.flatMap fun a => renditionSequence a.codes else []

/-- The sequences that end a rendition.  Code 0 ends what a code without a meaning may have
started. -/
def closing (r : Rendition) : List Char :=
  if r.isNotable then
    (if r.unknown && r.reset then renditionSequence [0] else []) ++
      ((Attribute.endings.filter fun n => r.attributes.any (·.ending = n)).flatMap fun n =>
        renditionSequence [n]) ++
      if r.unknown then renditionSequence [0] else []
  else []

/-- Lines with the sequences that start and end the rendition in each.  An empty line stays
empty. -/
def carry (r : Rendition) : List (List Char) → List (List Char)
  | [] => []
  | l :: ls =>
    let r' := r.after l
    (if l = [] then [] else r.opening ++ l ++ r'.closing) :: r'.carry ls

end Rendition

end StateMerging.Text
