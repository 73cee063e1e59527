import StateMerging.Proofs.Fixpoint

/-!
# No sentence is lost

Ingestion extends an automaton, and a step turns it into a quotient.  A path survives both, from the
start node to the start node and from a final node to a final node, so that what is accepted once
is accepted from then on (`Coherent.accepts_performAll`).  In a deterministic automaton the walk
along the first edges is the only path, and therefore it finds every sentence.
-/

namespace StateMerging.Automaton

variable {a b : Automaton} {report : StepReport} {w : List String} {s : String}

/-- The walk along the first edges can follow all tokens, and ends in an accepting node. -/
def Recognizes (a : Automaton) (w : List String) : Prop :=
  ∃ q n, a.follow a.start w = some q ∧ a.node? q = some n ∧ n.accepting = true

theorem WellFormed.recognizes (ha : a.WellFormed) (hd : a.isDeterministic = true)
    (hw : a.Accepts w) : a.Recognizes w := by
  obtain ⟨q, hq, hpath⟩ := hw
  obtain ⟨n, hn, haccepting⟩ := (ha.mem_finals q).1 hq
  exact ⟨q, n, ha.follow_of_path hd hpath, hn, haccepting⟩

/-! ## What is accepted stays accepted -/

theorem Advance.accepts (k : Advance a report b) (hw : a.Accepts w) : b.Accepts w := by
  obtain ⟨h, hquot⟩ := k.quotient
  exact hquot.accepts hw

theorem Coherent.accepts_iterate (ha : a.Coherent) (hw : a.Accepts w) (n : Nat) :
    (Automaton.advance^[n] a).Accepts w := by
  induction n generalizing a with
  | zero => exact hw
  | succ n ih =>
    obtain ⟨report, -, k⟩ := ha.step_eq
    exact ih ha.advance (k.accepts hw)

theorem Coherent.accepts_perform (ha : a.Coherent) (hw : a.Accepts w) (x : Action) :
    (a.perform x).Accepts w := by
  cases x with
  | ingest s =>
    obtain ⟨-, hext, -⟩ := ingestTokens_spec ha.toWellFormed (Text.tokens s)
    exact hext.accepts hw
  | step => exact ha.accepts_iterate hw 1
  | settle bound =>
    obtain ⟨n, -, heq⟩ := ha.settle_eq bound
    rw [Automaton.perform, heq]
    exact ha.accepts_iterate hw n

theorem Coherent.accepts_performAll (ha : a.Coherent) (hw : a.Accepts w) (actions : List Action) :
    (a.performAll actions).Accepts w := by
  induction actions generalizing a with
  | nil => exact hw
  | cons x actions ih => exact ih (ha.perform x) (ha.accepts_perform hw x)

/-- A sentence that a run has ingested is accepted at the end of the run. -/
theorem Coherent.accepts_of_mem (ha : a.Coherent) {actions : List Action}
    (hs : Action.ingest s ∈ actions) : (a.performAll actions).Accepts (Text.tokens s) := by
  induction actions generalizing a with
  | nil => cases hs
  | cons x actions ih =>
    rcases List.mem_cons.1 hs with rfl | hs
    · obtain ⟨-, -, hw⟩ := ingestTokens_spec ha.toWellFormed (Text.tokens s)
      exact (ha.perform (.ingest s)).accepts_performAll hw actions
    · exact ih (ha.perform x) hs

/-- On every run an action only adds to what is accepted.  The sentences ingested so far are
accepted, and as soon as the automaton is deterministic, in particular when settling has stopped
before its bound, the walk along the first edges recognizes them. -/
theorem sentences_are_kept (actions : List Action) :
    (∀ x w, (empty.performAll actions).Accepts w →
      ((empty.performAll actions).perform x).Accepts w) ∧
    ∀ s, .ingest s ∈ actions →
      (empty.performAll actions).Accepts (Text.tokens s) ∧
      ((empty.performAll actions).isDeterministic = true →
        (empty.performAll actions).Recognizes (Text.tokens s)) ∧
      ∀ bound k, ((empty.performAll actions).settle bound).result = .ok k → k < bound →
        ((empty.performAll actions).settle bound).after.Recognizes (Text.tokens s) := by
  have ha := coherent_performAll actions
  refine ⟨fun x w hw => ha.accepts_perform hw x, fun s hs => ?_⟩
  have hw := coherent_empty.accepts_of_mem hs
  refine ⟨hw, fun hd => ha.recognizes hd hw, fun bound k hrun hk => ?_⟩
  have hd := ha.isDeterministic_of_settle hrun hk
  have hb := ha.perform (.settle bound)
  exact hb.recognizes hd (ha.accepts_perform hw (.settle bound))

theorem clash_keeps_sentences :
    clash.Accepts ["b", "c", "d"] ∧ (clash.settle 9).result = .ok 2 ∧
      (clash.settle 9).after.Recognizes ["b", "c", "d"] := by
  have htokens : Text.tokens "b c d" = ["b", "c", "d"] := by decide +kernel
  have hrun : (clash.settle 9).result = .ok 2 := by decide +kernel
  have h := (sentences_are_kept [.ingest "a", .ingest "a c", .ingest "b", .ingest "b c d",
    .step]).2 "b c d" (by decide)
  rw [htokens] at h
  exact ⟨h.1, hrun, h.2.2 9 2 hrun (by omega)⟩

end StateMerging.Automaton
