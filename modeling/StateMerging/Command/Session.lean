import StateMerging.Automaton.Ingest
import StateMerging.Automaton.Settle
import StateMerging.Command.Files
import StateMerging.Command.Options
import StateMerging.Snapshot.Display

/-!
# Sessions

A session ingests the sentences of a command line, shows the automaton, and generalizes it in one of
three modes: a step for each line of input, a number of steps, or steps to the fixpoint.  What it
prints, and how it fails, is its `Transcript`.
-/

namespace StateMerging.Command

/-! ## Failures and transcripts -/

/-- Why a session fails. -/
inductive Failure
  | unreadable (r : ReadFailure)
  | violated (v : Violation)
  deriving DecidableEq

def Failure.message : Failure → String
  | unreadable r => "could not read input: " ++ r.message
  | violated v => "merging failed: " ++ v.message

/-- What a session prints, and how it fails if it does. -/
structure Transcript where
  pieces : List String
  failure : Option Failure
  deriving DecidableEq

namespace Transcript

def output (t : Transcript) : String := String.join t.pieces

/-- The exit code: zero, or one after a failure. -/
def code (t : Transcript) : Nat := if t.failure.isSome then 1 else 0

end Transcript

/-- A computation that prints, as the printed pieces and its result. -/
structure Printing (α : Type) where
  pieces : List String
  result : α

namespace Printing

instance : Monad Printing where
  pure x := ⟨[], x⟩
  bind p f := ⟨p.pieces ++ (f p.result).pieces, (f p.result).result⟩

instance : LawfulMonad Printing :=
  LawfulMonad.mk' Printing (fun p => by simp [Functor.map]) (fun _ _ => rfl)
    fun p f g => by simp [bind]

def print (piece : String) : Printing PUnit := ⟨[piece], ⟨⟩⟩

/-- What is printed if the result is how a session fails. -/
def transcript (p : Printing (Option Failure)) : Transcript := ⟨p.pieces, p.result⟩

theorem output_print_bind (piece : String) (f : PUnit → Printing (Option Failure)) :
    (print piece >>= f).transcript.output = piece ++ (f ⟨⟩).transcript.output := String.join_cons

end Printing

namespace Session

/-! ## Sentences -/

/-- The sentences when none are given. -/
def sample : List String := ["Mary eats pies", "John bakes cakes", "Mary bakes cakes"]

/-- The sentences among the lines of a file. -/
def fileSentences (keepEmpty : Bool) (lines : List String) : List String :=
  if keepEmpty then lines else lines.filter (!Text.isBlankLine ·)

/-- The sentences of a session.  The file is looked at only if the options name one. -/
def sentences (o : Options) (file : Except ReadFailure Text.LineStream) :
    Except Failure (List String) :=
  match o.file, file with
  | none, _ => .ok (if o.sentences.isEmpty then sample else o.sentences)
  | some _, .error r => .error (.unreadable r)
  | some _, .ok s =>
    if s.readable then .ok (o.sentences ++ fileSentences o.keepEmpty s.lines)
    else .error (.unreadable .notText)

def initial (o : Options) (file : Except ReadFailure Text.LineStream) : Except Failure Automaton :=
  (sentences o file).map Automaton.empty.ingestAll

/-! ## What is printed -/

def showAutomaton (a : Automaton) : String := a.snapshot.display ++ "\n"

/-- A step as it is printed, with the automaton it led to. -/
def showStep (r : StepReport) (a : Automaton) : String := r.describe ++ "\n" ++ showAutomaton a

def prompt : String := "[enter] merge step, [q] quit > "

/-! ## Modes -/

/-- What an interactive session does when something arrives. -/
inductive Reply
  | stop (failure : Option Failure)
  | go (text : String) (a : Automaton)

/-- Ends the session on a line that holds only the letter `q`, and at the end of the input, and
makes a step on any other line. -/
def reply (a : Automaton) : Text.Arrival → Reply
  | .ending => .stop none
  | .unreadable => .stop (some (.unreadable .notText))
  | .line l =>
    if Text.trim l = "q" then .stop none
    else
      match a.step with
      | ⟨.error v, _⟩ => .stop (some (.violated v))
      | ⟨.ok r, b⟩ => .go (showStep r b) b

section

-- The session is the same program at the terminal, where a piece is printed at once and a line is
-- waited for, and in a transcript.
variable {m : Type → Type} [Monad m] {ρ : Type} [ForIn m ρ Text.Arrival]
  (print : String → m PUnit)

/-- A step for each line of the input.  The result is how the session fails, if it does. -/
def interactive (a : Automaton) (input : ρ) : m (Option Failure) := do
  print prompt
  let mut a := a
  for arrival in input do
    match reply a arrival with
    | .stop failure => return failure
    | .go text b =>
      print text
      print prompt
      a := b
  return none

theorem interactive_cons [LawfulMonad m] (a : Automaton) (arrival : Text.Arrival)
    (more : List Text.Arrival) :
    interactive print a (arrival :: more) = (do
      print prompt
      match reply a arrival with
      | .stop failure => return failure
      | .go text b =>
        print text
        interactive print b more) := by
  cases h : reply a arrival with
  | stop failure => simp [interactive, h]
  | go text b => simp [interactive, h]

def steps (a : Automaton) : Nat → m (Option Failure)
  | 0 => return none
  | n + 1 =>
    match a.step with
    | ⟨.error v, _⟩ => return some (.violated v)
    | ⟨.ok r, b⟩ => do
      print (showStep r b)
      steps b n

def fixpoint (a : Automaton) (bound : Nat) : m (Option Failure) :=
  match a.settle bound with
  | ⟨.error v, _⟩ => return some (.violated v)
  | ⟨.ok _, b⟩ => do
    print (showAutomaton b)
    return none

def generalize (mode : Mode) (a : Automaton) (input : ρ) : m (Option Failure) :=
  match mode with
  | .interactive => interactive print a input
  | .steps n => steps print a n
  | .fixpoint bound => fixpoint print a bound

def play (o : Options) (file : Except ReadFailure Text.LineStream) (input : ρ) :
    m (Option Failure) :=
  match initial o file with
  | .error f => return some f
  | .ok a => do
    print (showAutomaton a)
    generalize print o.mode a input

end

/-- The transcript of a whole session. -/
def run (o : Options) (file : Except ReadFailure Text.LineStream) (input : Text.LineStream) :
    Transcript := (play Printing.print o file input.arrivals).transcript

end Session

end StateMerging.Command
