/-!
# Escape sequences in a text

A terminal shows some characters of a text and obeys others, the escape sequences.  A text is cut
into segments behind every complete sequence.  The reader counts the bytes that are shown, and the
control characters that are obeyed by themselves.  A segment shows as many bytes, and the rest of it
is the sequence.  Before what it shows it passes over one byte for each escape character that
directly follows another one, for only the last of them starts a sequence.
-/

namespace StateMerging.Text

def escape : Char := '\x1b'

/-! ## The reader -/

/-- How far a sequence with parameters is read. -/
inductive Stage
  | start
  | parameters
  /-- In the marks before the last character. -/
  | marks
  /-- In a sequence that breaks the rules. -/
  | ignored
  deriving DecidableEq

/-- Where the reader of a text is. -/
inductive ReadState
  | outside
  | escape
  /-- Behind an escape character and others, marks among them if `marked`. -/
  | escaped (marked : Bool)
  /-- In a control sequence with a number of marks and of separators between parameters. -/
  | control (stage : Stage) (marks separators : Nat)
  /-- In the head of a device control string. -/
  | device (stage : Stage)
  /-- In the body of a string for a device or an application. -/
  | body
  /-- In a command for the operating system. -/
  | command
  deriving DecidableEq

inductive SequenceKind
  | rendition
  | other
  deriving DecidableEq

structure Reading where
  next : ReadState
  /-- The bytes of the character if it is shown, or is obeyed by itself, and none otherwise. -/
  bytes : Nat
  completed : Option SequenceKind
  deriving DecidableEq

namespace ReadState

def isControl (c : Char) : Bool := c < ' '

def isCancel (c : Char) : Bool := c = '\x18' || c = '\x1a'

/-- Whether a character is a mark, which comes before the last character of a sequence. -/
def isMark (c : Char) : Bool := ' ' ≤ c && c ≤ '/'

def isFinal (c : Char) : Bool := '0' ≤ c && c ≤ '~'

def isControlFinal (c : Char) : Bool := '@' ≤ c && c ≤ '~'

def isTerminator (c : Char) : Bool := 0x9C ∈ String.utf8EncodeChar c

def readEscaped (marked : Bool) (c : Char) : Reading :=
  if isControl c then ⟨.escaped marked, 1, none⟩
  else if isMark c then ⟨.escaped true, 0, none⟩
  else if isFinal c then
    if marked then ⟨.outside, 0, some .other⟩
    else if c = '[' then ⟨.control .start 0 0, 0, none⟩
    else if c = ']' then ⟨.command, 0, none⟩
    else if c = 'P' then ⟨.device .start, 0, none⟩
    else if c = 'X' || c = '^' || c = '_' then ⟨.body, 0, none⟩
    else ⟨.outside, 0, some .other⟩
  else ⟨.escaped marked, 0, none⟩

/-- The stage behind a character that does not end a sequence with parameters.  A parameter behind a
mark is against the rules, and so is a private mark that is not the first character. -/
def nextStage (stage : Stage) (c : Char) : Stage :=
  if isMark c then .marks
  else if '<' ≤ c && c ≤ '?' then if stage = .start then .parameters else .ignored
  else if '0' ≤ c && c ≤ ';' then if stage = .marks then .ignored else .parameters
  else stage

/-- The kind of a control sequence that ends in a character.  More than one mark and more than 32
parameters are against the rules. -/
def controlKind? (stage : Stage) (marks separators : Nat) (c : Char) : Option SequenceKind :=
  if stage = .ignored || 1 < marks || 32 ≤ separators then none
  else if c = 'm' && marks = 0 then some .rendition
  else some .other

def readControl (stage : Stage) (marks separators : Nat) (c : Char) : Reading :=
  if isControl c then ⟨.control stage marks separators, 1, none⟩
  else if isControlFinal c then ⟨.outside, 0, controlKind? stage marks separators c⟩
  else if stage = .ignored then ⟨.control .ignored marks separators, 0, none⟩
  else
    let marks := if isMark c || ('<' ≤ c && c ≤ '?') then marks + 1 else marks
    let separators := if c = ';' || c = ':' then separators + 1 else separators
    ⟨.control (nextStage stage c) marks separators, 0, none⟩

/-- What a character does in the head of a device control string.  The body starts behind the last
character of the head, or where the head breaks the rules. -/
def readDevice (stage : Stage) (c : Char) : Reading :=
  if isControlFinal c || nextStage stage c = .ignored then ⟨.body, 0, none⟩
  else ⟨.device (nextStage stage c), 0, none⟩

/-- What a character does.  A character that cancels is obeyed by itself and leaves the sequence;
only a command is complete then.  An escape character in a command completes it, too. -/
def read (s : ReadState) (c : Char) : Reading :=
  let completed := if s = .command then some .other else none
  if isCancel c then ⟨.outside, 1, completed⟩
  else if c = Text.escape then ⟨.escape, 0, completed⟩
  else
    match s with
    | .outside => ⟨.outside, c.utf8Size, none⟩
    | .escape => readEscaped false c
    | .escaped marked => readEscaped marked c
    | .control stage marks separators => readControl stage marks separators c
    | .device stage => readDevice stage c
    | .body => ⟨if isTerminator c then .outside else .body, 0, none⟩
    | .command => if c = '\x07' then ⟨.outside, 0, completed⟩ else ⟨.command, 0, none⟩

end ReadState

/-! ## Bytes -/

def byteCount (cs : List Char) : Nat := cs.foldr (fun c n => c.utf8Size + n) 0

/-- A text cut in two, the first part as long as a number of bytes allows. -/
def splitBytes (n : Nat) : List Char → List Char × List Char
  | [] => ([], [])
  | c :: cs =>
    if c.utf8Size ≤ n then
      let parts := splitBytes (n - c.utf8Size) cs
      (c :: parts.1, parts.2)
    else ([], c :: cs)

@[simp] theorem splitBytes_zero (cs : List Char) : splitBytes 0 cs = ([], cs) := by
  cases cs with
  | nil => rfl
  | cons c cs => simp [splitBytes, Nat.not_le.2 c.utf8Size_pos]

theorem splitBytes_byteCount (cs ds : List Char) :
    splitBytes (byteCount cs) (cs ++ ds) = (cs, ds) := by
  induction cs with
  | nil => exact splitBytes_zero ds
  | cons c cs ih =>
    have : byteCount (c :: cs) = c.utf8Size + byteCount cs := rfl
    simp [splitBytes, this, ih]

/-! ## Segments -/

/-- A part of a text up to the end of a sequence: what is passed over, shown and obeyed. -/
structure Segment where
  skipped : List Char
  shown : List Char
  sequence : List Char
  kind : Option SequenceKind
  deriving DecidableEq

namespace Segment

def ofSequence (skip bytes : Nat) (kind : SequenceKind) (cs : List Char) : Segment :=
  let parts := splitBytes skip cs
  let rest := splitBytes bytes parts.2
  ⟨parts.1, rest.1, rest.2, some kind⟩

def ofRest (skip bytes : Nat) (cs : List Char) : Segment :=
  let parts := splitBytes skip cs
  if bytes = 0 then ⟨parts.1, [], parts.2, none⟩ else ⟨parts.1, parts.2, [], none⟩

end Segment

/-- The segments of the characters `chars`, latest first, and of the characters after them.  Among
`chars`, `skip` escape characters directly followed another one, and `bytes` were counted. -/
def segmentsFrom (s : ReadState) (chars : List Char) (skip bytes : Nat) :
    List Char → List Segment
  | [] => [.ofRest skip bytes chars.reverse]
  | c :: cs =>
    let r := s.read c
    let skip := if s = .escape && c = escape then skip + 1 else skip
    match r.completed with
    | some kind =>
      .ofSequence skip (bytes + r.bytes) kind (c :: chars).reverse ::
        segmentsFrom r.next [] 0 0 cs
    | none => segmentsFrom r.next (c :: chars) skip (bytes + r.bytes) cs

def segments (cs : List Char) : List Segment := segmentsFrom .outside [] 0 0 cs

/-! ## Texts without the escape character -/

theorem ReadState.utf8Size_of_isCancel {c : Char} (h : isCancel c = true) : c.utf8Size = 1 := by
  simp only [isCancel, Bool.or_eq_true, decide_eq_true_eq] at h
  rcases h with rfl | rfl <;> rfl

theorem ReadState.read_outside {c : Char} (h : c ≠ Text.escape) :
    outside.read c = ⟨.outside, c.utf8Size, none⟩ := by
  by_cases hc : isCancel c = true
  · simp [ReadState.read, hc, utf8Size_of_isCancel hc]
  · simp [ReadState.read, hc, h]

theorem segmentsFrom_outside_append {cs : List Char} (h : escape ∉ cs) (chars : List Char)
    (skip bytes : Nat) (ds : List Char) :
    segmentsFrom .outside chars skip bytes (cs ++ ds) =
      segmentsFrom .outside (cs.reverse ++ chars) skip (bytes + byteCount cs) ds := by
  induction cs generalizing chars bytes with
  | nil => rfl
  | cons c cs ih =>
    have hc : c ≠ escape := fun e => h (by simp [e])
    have hb : byteCount (c :: cs) = c.utf8Size + byteCount cs := rfl
    simp only [List.cons_append, segmentsFrom, ReadState.read_outside hc]
    rw [if_neg (by simp), ih fun hm => h (by simp [hm])]
    simp [hb, Nat.add_assoc]

theorem segments_of_no_escape {cs : List Char} (h : escape ∉ cs) :
    segments cs = [⟨[], cs, [], none⟩] := by
  have := segmentsFrom_outside_append h [] 0 0 []
  rw [List.append_nil] at this
  rw [segments, this]
  cases cs with
  | nil => rfl
  | cons c cs =>
    have hb : byteCount (c :: cs) ≠ 0 := by
      have := c.utf8Size_pos
      simp only [byteCount, List.foldr_cons]
      omega
    simp [segmentsFrom, Segment.ofRest, hb]

theorem ReadState.read_digit {stage : Stage} (hs : stage = .start ∨ stage = .parameters)
    {c : Char} (h : c.isDigit = true) :
    (ReadState.control stage 0 0).read c = ⟨.control .parameters 0 0, 0, none⟩ := by
  simp only [Char.isDigit, Bool.and_eq_true, decide_eq_true_eq] at h
  have h₁ : 48 ≤ c.toNat := UInt32.le_iff_toNat_le.1 h.1
  have h₂ : c.toNat ≤ 57 := UInt32.le_iff_toNat_le.1 h.2
  have key : ∀ k < 10, ∀ stage ∈ [Stage.start, .parameters],
      (ReadState.control stage 0 0).read (Char.ofNat (48 + k)) =
        ⟨.control .parameters 0 0, 0, none⟩ := by decide
  have := key (c.toNat - 48) (by omega) stage (by rcases hs with rfl | rfl <;> simp)
  rwa [Nat.add_sub_cancel' h₁, Char.ofNat_toNat] at this

theorem segmentsFrom_digits {digits : List Char} (hd : digits.all Char.isDigit = true)
    {stage : Stage} (hs : stage = .start ∨ stage = .parameters) (chars : List Char)
    (skip bytes : Nat) (ds : List Char) :
    segmentsFrom (.control stage 0 0) chars skip bytes (digits ++ 'm' :: ds) =
      .ofSequence skip bytes .rendition (chars.reverse ++ (digits ++ ['m'])) :: segments ds := by
  induction digits generalizing stage chars with
  | nil =>
    have hm : (ReadState.control stage 0 0).read 'm' = ⟨.outside, 0, some .rendition⟩ := by
      rcases hs with rfl | rfl <;> rfl
    simp [segmentsFrom, hm, segments]
  | cons d digits ih =>
    rw [List.all_cons, Bool.and_eq_true] at hd
    simp [segmentsFrom, ReadState.read_digit hs hd.1, ih hd.2 (.inr rfl)]

theorem segments_append_control {cs : List Char} (h : escape ∉ cs) {digits : List Char}
    (hd : digits.all Char.isDigit = true) (ds : List Char) :
    segments (cs ++ escape :: '[' :: (digits ++ 'm' :: ds)) =
      ⟨[], cs, escape :: '[' :: (digits ++ ['m']), some .rendition⟩ :: segments ds := by
  have h₁ : ReadState.outside.read escape = ⟨.escape, 0, none⟩ := rfl
  have h₂ : ReadState.escape.read '[' = ⟨.control .start 0 0, 0, none⟩ := rfl
  have he : '[' ≠ escape := by decide
  rw [segments, segmentsFrom_outside_append h]
  simp [segmentsFrom, h₁, h₂, he, segmentsFrom_digits hd, Segment.ofSequence,
    splitBytes_byteCount]

end StateMerging.Text
