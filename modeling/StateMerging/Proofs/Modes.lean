import StateMerging.Command.Session
import StateMerging.Proofs.Fixpoint

/-!
# The modes of a session show one course of steps

From an automaton of a run there is one course of steps, and no step of it fails.  A session shows
it in three ways: a number of its steps, a step for each line of input, or nothing of it but the
automaton at which settling stops.

* `Coherent.exists_course`: the course from an automaton.
* `Course.steps_eq` and `Course.interactive_eq`: what the first two modes print, by recursion over
  the number of steps and over the lines, each with the course behind its first step.
* `Course.fixpoint_eq`: what the last mode prints, an automaton of the course.
* `Session.modes_show_one_course`: the three outputs together.
-/

namespace StateMerging

open Command Command.Session

/-- Steps one after the other, from a first automaton on. -/
structure Course (a : Automaton) where
  /-- The automaton after a number of steps. -/
  state : Nat → Automaton
  /-- What the step from this automaton reports. -/
  report : Nat → StepReport
  start : state 0 = a
  step (i : Nat) : (state i).step = ⟨.ok (report i), state (i + 1)⟩

variable {a : Automaton}

theorem Automaton.Coherent.exists_course (ha : a.Coherent) : Nonempty (Course a) := by
  choose report hreport using fun i => (ha.iterate i).step_eq
  exact ⟨{
    state := fun i => Automaton.advance^[i] a
    report
    start := rfl
    step := fun i => by rw [Function.iterate_succ_apply', ← (hreport i).1] }⟩

namespace Course

theorem state_eq (c : Course a) (n : Nat) : c.state n = Automaton.advance^[n] a := by
  induction n with
  | zero => exact c.start
  | succ n ih => rw [Function.iterate_succ_apply', ← ih, Automaton.advance, c.step]

/-- The course behind the first step. -/
def tail (c : Course a) : Course (c.state 1) where
  state i := c.state (i + 1)
  report i := c.report (i + 1)
  start := rfl
  step i := c.step (i + 1)

theorem step_start (c : Course a) : a.step = ⟨.ok (c.report 0), c.state 1⟩ := by
  conv_lhs => rw [← c.start]
  exact c.step 0

/-- The report of a step and the table after it, as they are printed. -/
def shown (c : Course a) (i : Nat) : String :=
  (c.report i).describe ++ "\n" ++ showAutomaton (c.state (i + 1))

/-- The first steps as they are printed, each behind some text. -/
def printed (c : Course a) (before : String) (n : Nat) : String :=
  String.join ((List.range n).map fun i => before ++ c.shown i)

theorem printed_succ (c : Course a) (before : String) (n : Nat) :
    c.printed before (n + 1) = before ++ c.shown 0 ++ c.tail.printed before n := by
  rw [printed, List.range_succ_eq_map, List.map_cons, List.map_map, String.join_cons]
  rfl

/-- The table that is printed last is that of the automaton after all steps. -/
theorem exists_front (c : Course a) (n : Nat) : ∃ front,
    showAutomaton (c.state 0) ++ c.printed "" n = front ++ showAutomaton (c.state n) := by
  cases n with
  | zero => exact ⟨"", by simp [printed]⟩
  | succ n =>
    refine ⟨showAutomaton (c.state 0) ++ c.printed "" n ++ ((c.report n).describe ++ "\n"), ?_⟩
    simp [printed, shown, List.range_succ, String.append_assoc]

/-! ## Printing a course -/

theorem steps_eq (c : Course a) (n : Nat) :
    (steps Printing.print a n).transcript.output = c.printed "" n ∧
      (steps Printing.print a n).transcript.code = 0 := by
  induction n generalizing a with
  | zero => exact ⟨rfl, rfl⟩
  | succ n ih =>
    obtain ⟨houtput, hcode⟩ := ih c.tail
    rw [steps, c.step_start]
    refine ⟨?_, hcode⟩
    rw [Printing.output_print_bind, houtput, c.printed_succ, String.empty_append]
    rfl

theorem reply_line (c : Course a) {line : String} (hline : Text.trim line ≠ "q") :
    reply a (.line line) = .go (c.shown 0) (c.state 1) := by
  rw [reply, if_neg hline, c.step_start]
  rfl

theorem interactive_eq (c : Course a) {lines : List String} {last : Text.Arrival}
    (rest : List Text.Arrival) (hlines : ∀ line ∈ lines, Text.trim line ≠ "q")
    (hlast : ∀ b, reply b last = .stop none) :
    (interactive Printing.print a (lines.map .line ++ last :: rest)).transcript.output =
        c.printed prompt lines.length ++ prompt ∧
      (interactive Printing.print a (lines.map .line ++ last :: rest)).transcript.code = 0 := by
  induction lines generalizing a with
  | nil =>
    rw [List.map_nil, List.nil_append, interactive_cons, hlast]
    exact ⟨rfl, rfl⟩
  | cons line lines ih =>
    have hline : Text.trim line ≠ "q" := hlines line List.mem_cons_self
    obtain ⟨houtput, hcode⟩ := ih c.tail fun l hl => hlines l (List.mem_cons_of_mem line hl)
    rw [List.map_cons, List.cons_append, interactive_cons, c.reply_line hline]
    refine ⟨?_, hcode⟩
    rw [Printing.output_print_bind, Printing.output_print_bind, houtput, List.length_cons,
      c.printed_succ]
    simp only [String.append_assoc]

theorem fixpoint_eq (c : Course a) (ha : a.Coherent) (bound : Nat) :
    ∃ k ≤ bound,
      (fixpoint Printing.print a bound).transcript.output = showAutomaton (c.state k) ∧
      (fixpoint Printing.print a bound).transcript.code = 0 ∧
      (k < bound → ∀ n, k ≤ n → showAutomaton (c.state n) = showAutomaton (c.state k)) := by
  obtain ⟨k, hk, hsettle⟩ := ha.settle_eq bound
  refine ⟨k, hk, ?_, ?_, fun hlt n hn => ?_⟩
  · rw [fixpoint, hsettle, c.state_eq]
    exact (Printing.output_print_bind _ _).trans String.append_empty
  · rw [fixpoint, hsettle]
    rfl
  · have hcycle := ha.settle_cycle (congrArg Outcome.result hsettle) hlt
    obtain ⟨m, rfl⟩ := Nat.exists_eq_add_of_le' hn
    rw [c.state_eq, c.state_eq, Function.iterate_add_apply, showAutomaton,
      (ha.iterate k).snapshot_iterate hcycle m, showAutomaton]

end Course

/-- An interactive session ends without a failure at the first line that asks to quit, or else at
the end of its input. -/
theorem exists_last_arrival (lines : List String) {rest : List String} {readable : Bool}
    (hrest : rest = [] ∧ readable = true ∨
      ∃ line more, rest = line :: more ∧ Text.trim line = "q") :
    ∃ last more, (⟨lines ++ rest, readable⟩ : Text.LineStream).arrivals =
        lines.map .line ++ last :: more ∧ ∀ b, reply b last = .stop none := by
  rcases hrest with ⟨rfl, rfl⟩ | ⟨line, more, rfl, hq⟩
  · exact ⟨.ending, [], by simp [Text.LineStream.arrivals], fun _ => rfl⟩
  · refine ⟨.line line, more.map .line ++ [if readable then .ending else .unreadable], ?_,
      fun b => by rw [reply, if_pos hq]⟩
    rw [Text.LineStream.arrivals, List.map_append, List.map_cons, List.append_assoc,
      List.cons_append]

/-- A session that can read its sentences has a course of steps, and shows it in every mode: the
automaton at the start, and then
* for a number of steps, what each of them reports and the table after it, so that the last table is
  that of the automaton after all of them;
* for an interactive session, the same behind a question each, for as many steps as there are lines
  before the first one that asks to quit, and then the question that this line or the end of the
  input answers;
* for settling, the table after some of the steps, no more than the bound.  If it is fewer, the table
  stays the same from there on.
Its exit code is zero in each mode. -/
theorem Command.Session.modes_show_one_course (o : Options)
    (file : Except ReadFailure Text.LineStream) {ss : List String} (h : sentences o file = .ok ss) :
    ∃ c : Course (Automaton.empty.ingestAll ss),
      (∀ n input, (run { o with mode := .steps n } file input).output =
          showAutomaton (c.state 0) ++ c.printed "" n ∧
        (∃ front, (run { o with mode := .steps n } file input).output =
          front ++ showAutomaton (c.state n)) ∧
        (run { o with mode := .steps n } file input).code = 0) ∧
      (∀ (lines rest : List String) (readable : Bool), (∀ line ∈ lines, Text.trim line ≠ "q") →
        (rest = [] ∧ readable = true ∨ ∃ line more, rest = line :: more ∧ Text.trim line = "q") →
        (run { o with mode := .interactive } file ⟨lines ++ rest, readable⟩).output =
            showAutomaton (c.state 0) ++ c.printed prompt lines.length ++ prompt ∧
          (run { o with mode := .interactive } file ⟨lines ++ rest, readable⟩).code = 0) ∧
      ∀ bound input, ∃ k ≤ bound,
        (run { o with mode := .fixpoint bound } file input).output =
            showAutomaton (c.state 0) ++ showAutomaton (c.state k) ∧
          (run { o with mode := .fixpoint bound } file input).code = 0 ∧
          (k < bound → ∀ n, k ≤ n → showAutomaton (c.state n) = showAutomaton (c.state k)) := by
  have hcoh := Automaton.coherent_empty.ingestAll ss
  obtain ⟨c⟩ := hcoh.exists_course
  -- The mode decides only what follows the first table.
  have hrun (mode : Mode) (input : Text.LineStream) : run { o with mode } file input = (do
      Printing.print (showAutomaton (c.state 0))
      generalize Printing.print mode (Automaton.empty.ingestAll ss)
        input.arrivals : Printing (Option Failure)).transcript := by
    have hs : sentences { o with mode } file = .ok ss := h
    rw [run, play, initial, hs, c.start]
    rfl
  have hprints (mode : Mode) (input : Text.LineStream) :
      (run { o with mode } file input).output = showAutomaton (c.state 0) ++
          (generalize Printing.print mode (Automaton.empty.ingestAll ss)
            input.arrivals).transcript.output ∧
        (run { o with mode } file input).code = (generalize Printing.print mode
          (Automaton.empty.ingestAll ss) input.arrivals).transcript.code := by
    rw [hrun]
    exact ⟨Printing.output_print_bind _ _, rfl⟩
  refine ⟨c, fun n input => ?_, fun lines rest readable hlines hrest => ?_, fun bound input => ?_⟩
  · obtain ⟨houtput, hcode⟩ := c.steps_eq n
    obtain ⟨htext, hexit⟩ := hprints (.steps n) input
    obtain ⟨front, hfront⟩ := c.exists_front n
    rw [generalize, houtput] at htext
    exact ⟨htext, ⟨front, htext.trans hfront⟩, hexit.trans hcode⟩
  · obtain ⟨last, more, harrivals, hlast⟩ := exists_last_arrival lines hrest
    obtain ⟨houtput, hcode⟩ := c.interactive_eq more hlines hlast
    obtain ⟨htext, hexit⟩ := hprints .interactive ⟨lines ++ rest, readable⟩
    rw [generalize, harrivals, houtput, ← String.append_assoc] at htext
    rw [generalize, harrivals] at hexit
    exact ⟨htext, hexit.trans hcode⟩
  · obtain ⟨k, hk, houtput, hcode, hstays⟩ := c.fixpoint_eq hcoh bound
    obtain ⟨htext, hexit⟩ := hprints (.fixpoint bound) input
    rw [generalize, houtput] at htext
    exact ⟨k, hk, htext, hexit.trans hcode, hstays⟩

/-- Two steps, asked for by number and by two lines before one that quits, and at most nine steps to
the fixpoint. -/
theorem Command.Session.alternating_modes : ∃ c : Course (Automaton.empty.ingestAll ["a", "a a b"]),
    (run { sentences := ["a", "a a b"], mode := .steps 2 } (.error .notFound) ⟨[], true⟩).output =
      showAutomaton (c.state 0) ++ c.printed "" 2 ∧
    (run { sentences := ["a", "a a b"] } (.error .notFound)
        ⟨["", "go on", " q\t", "not read"], false⟩).output =
      showAutomaton (c.state 0) ++ c.printed prompt 2 ++ prompt ∧
    ∃ k ≤ 9, (run { sentences := ["a", "a a b"], mode := .fixpoint 9 } (.error .notFound)
        ⟨[], true⟩).output = showAutomaton (c.state 0) ++ showAutomaton (c.state k) := by
  obtain ⟨c, hsteps, hinteractive, hfixpoint⟩ :=
    modes_show_one_course { sentences := ["a", "a a b"] } (.error .notFound) rfl
  have hlines : ∀ line ∈ ["", "go on"], Text.trim line ≠ "q" := by decide
  have hquit : Text.trim " q\t" = "q" := by decide
  obtain ⟨k, hk, houtput, -⟩ := hfixpoint 9 ⟨[], true⟩
  exact ⟨c, (hsteps 2 _).1,
    (hinteractive _ [" q\t", "not read"] false hlines (Or.inr ⟨_, _, rfl, hquit⟩)).1, k, hk, houtput⟩

end StateMerging
