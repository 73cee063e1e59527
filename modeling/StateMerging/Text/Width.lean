import StateMerging.Text.Width.Classes

/-!
# Display width

The number of terminal columns that a text takes.  A character takes zero, one or two columns by its
class, but some combine with what follows them: a selector or a skin tone belongs to the emoji
before it, joined emoji are shown as one, and some scripts join two letters.  A text is therefore
read from its end, and a `Following` says what of the text behind a character matters.
-/

namespace StateMerging.Text

/-! ## Single characters -/

def isBasic (c : Char) : Bool := c.toNat ≤ 0xA0

def isRegional (c : Char) : Bool := 0x1F1E6 ≤ c.toNat && c.toNat ≤ 0x1F1FF

def isSkinTone (c : Char) : Bool := 0x1F3FB ≤ c.toNat && c.toNat ≤ 0x1F3FF

def isJoiner (c : Char) : Bool := c.toNat = 0x200D

def takesEmojiSelector (c : Char) : Bool := emojiText.contains c || emojiShownEither.contains c

/-- Whether a character in front of the text selector takes one column instead of two; ideographs
keep theirs. -/
def takesTextSelector (c : Char) : Bool :=
  emojiShownEither.contains c && !(0x1F200 ≤ c.toNat && c.toNat ≤ 0x1F2FF)

def charWidth (c : Char) : Nat :=
  if isBasic c then 1
  else if c.toNat = 0x17D8 then 3
  else if zeroWidth.contains c then 0
  else if doubleWidth.contains c then 2
  else 1

/-! ## What follows a character -/

/-- Letters that form a ligature with a letter before them. -/
inductive Joined
  | alef
  | lamed
  | coeng
  | ya
  | vowelYa
  | consonant
  | joinedConsonant
  | tone
  | orkhon
  deriving DecidableEq

inductive Following
  | other
  | textSelector
  | emojiSelector
  | modifier
  | emoji
  /-- Regional indicators, more than one of them if `several`. -/
  | regional (several : Bool)
  /-- A joiner and then an emoji, behind an enclosing keycap if `keycap`, and all behind the emoji
  selector if `selected`. -/
  | joiner (keycap selected : Bool)
  | joinedRegional
  /-- Two or more regional indicators, an even number if `even`, a joiner and then an emoji. -/
  | joinedRegionals (even : Bool)
  /-- The tags at the end of a subdivision flag that is joined to an emoji: the end tag, then
  letters, then digits, as read from the end. -/
  | tags (letters digits : Nat)
  /-- A letter that can form a ligature, behind a joiner if `joined` and behind variation
  selectors. -/
  | letter (l : Joined) (joined text emoji : Bool)
  deriving DecidableEq

namespace Following

def ofChar (c : Char) : Following :=
  match c.toNat with
  | 0xFE0E => .textSelector
  | 0xFE0F => .emojiSelector
  | 0x5DC => .letter .lamed false false false
  | 0x1A10 => .letter .ya false false false
  | 0xA4FC | 0xA4FD => .letter .tone false false false
  | 0x10C03 => .letter .orkhon false false false
  | _ =>
    if isSkinTone c then .modifier
    else if isRegional c then .regional false
    else if emojiShown.contains c then .emoji
    else if alefLike.contains c then .letter .alef false false false
    else if coengLetter.contains c then .letter .coeng false false false
    else if tifinaghConsonant.contains c then .letter .consonant false false false
    else .other

def selectEmoji : Following → Following
  | .joiner k _ => .joiner k true
  | .letter l j t _ => .letter l j t true
  | _ => .emojiSelector

def selectText : Following → Following
  | .letter l j _ e => .letter l j true e
  | _ => .textSelector

def emojiSelected : Following → Bool
  | .emojiSelector => true
  | .joiner _ s => s
  | .letter _ _ _ e => e
  | _ => false

def textSelected : Following → Bool
  | .textSelector => true
  | .letter _ _ t _ => t
  | _ => false

/-- What follows for a character that the emoji selector does not change. -/
def dropEmoji : Following → Following
  | .emojiSelector | .joiner _ true => .other
  | .letter l j t _ => .letter l j t false
  | f => f

def dropText : Following → Following
  | .textSelector => .other
  | .letter l j _ e => .letter l j false e
  | f => f

def isJoined : Following → Bool
  | .joiner _ _ => true
  | _ => false

end Following

/-! ## Characters in context -/

/-- The columns of a character in front of a letter with which it forms a ligature, and what the two
are to the character before them. -/
def ligature? (c : Char) (l : Joined) (joined : Bool) : Option (Int × Following) :=
  match l, joined, c.toNat with
  | .lamed, true, 0x5D0 => some (0, .other)
  | .coeng, _, 0x17D2 => some (-1, .other)
  | .ya, true, 0x1A17 => some (0, .letter .vowelYa false false false)
  | .vowelYa, _, 0x1A15 => some (0, .other)
  | .consonant, _, 0x2D7F => some (1, .letter .joinedConsonant false false false)
  | .orkhon, true, 0x10C32 => some (0, .other)
  | .alef, _, _ => if lamLike.contains c then some (0, .other) else none
  | .consonant, true, _ => if tifinaghConsonant.contains c then some (0, .other) else none
  | .joinedConsonant, _, _ => if tifinaghConsonant.contains c then some (-1, .other) else none
  | .tone, _, n => if 0xA4F8 ≤ n && n ≤ 0xA4FB then some (0, .other) else none
  | _, _, _ => none

/-- The columns of a character in front of a letter that it does not separate from the character
before it. -/
def letterSequence? (c : Char) (l : Joined) (joined : Bool) : Option (Int × Following) :=
  if l = .alef then
    if zeroWidth.contains c && !joinBreaking.contains c then
      some (0, .letter l joined false false)
    else ligature? c l joined
  else if ligatureTransparent.contains c then
    some (0, .letter l (joined || isJoiner c) false false)
  else ligature? c l joined

def joinerSequence? (c : Char) : Option (Int × Following) :=
  if c.toNat = 0x20E3 then some (0, .joiner true false)
  else if isRegional c then some (1, .joinedRegional)
  else if isSkinTone c then some (0, .modifier)
  else if c.toNat = 0xE007F then some (0, .tags 0 0)
  else if Following.ofChar c = .emoji then some (0, .emoji)
  else none

/-- The columns of a character in front of the tags of a flag.  The code of a subdivision has three
to six characters, and its last three may be digits. -/
def tagSequence? (c : Char) (letters digits : Nat) : Option (Int × Following) :=
  if c.toNat = 0x1F3F4 then
    if digits = 3 || (digits = 0 && 3 ≤ letters) then some (0, .emoji) else none
  else if 0xE0061 ≤ c.toNat && c.toNat ≤ 0xE007A then
    if digits = 0 && letters < 6 then some (0, .tags (letters + 1) 0) else none
  else if 0xE0030 ≤ c.toNat && c.toNat ≤ 0xE0039 then
    if digits < 3 && letters ≤ 4 then some (0, .tags letters (digits + 1)) else none
  else none

def sequence? (c : Char) (f : Following) : Option (Int × Following) :=
  match f with
  | .letter l joined _ _ => letterSequence? c l joined
  | .modifier =>
    if modifierBase.contains c then some (0, .emoji)
    else if isJoiner c then some (0, .joiner false false)
    else none
  | .emoji => if isJoiner c then some (0, .joiner false false) else none
  | .regional several =>
    if isRegional c then some (1, .regional true)
    else if several && isJoiner c then some (0, .joiner false false)
    else none
  | .joiner false false => joinerSequence? c
  | .joinedRegional => if isRegional c then some (-1, .joinedRegionals true) else none
  | .joinedRegionals even =>
    if isRegional c then some (if even then 3 else -1, .joinedRegionals !even)
    else if isJoiner c then some (0, .joiner false false)
    else none
  | .tags letters digits => tagSequence? c letters digits
  | _ => none

/-- The columns of a character in front of what follows it, and what it is to the character before
it.  A negative number takes back columns that were counted for what follows. -/
def advance (c : Char) (f : Following) : Int × Following :=
  if f.emojiSelected && takesEmojiSelector c then (if f.isJoined then 0 else 2, .emoji)
  else if isBasic c then (1, .other)
  else if c.toNat = 0xFE0F then (0, f.dropEmoji.selectEmoji)
  else if c.toNat = 0xFE0E then (0, f.dropEmoji.selectText)
  else if f.dropEmoji.textSelected && takesTextSelector c then (1, .other)
  else (sequence? c f.dropEmoji.dropText).getD (charWidth c, .ofChar c)

/-- The columns that a list of characters takes, and what it is to a character before it. -/
def measure (cs : List Char) : Int × Following :=
  cs.foldr (fun c r => let s := advance c r.2; (s.1 + r.1, s.2)) (0, .other)

def width (cs : List Char) : Nat := (measure cs).1.toNat

end StateMerging.Text
