import StateMerging.Proofs.Closure

/-!
# Generalization stays within every reversible automaton of the sample

A `Reversible` automaton is partial and deterministic, has at most one accepting state, and tells
the sources of its transitions apart: two states with one successor by a label are equal.

`MapsInto φ a A` says that `φ` sends the edges of `a` to transitions of `A`, the start node to the
initial state and the final nodes to the accepting state; then `A` accepts whatever `a` accepts
(`MapsInto.accepts`).  Such a map exists along every run that ingests only what `A` accepts:

* `MapsInto.eq_of_candidate`: each pair of nodes that a step has a reason to identify is identified
  by the map already, the final nodes because `A` has one accepting state, the targets of one label
  because `A` is deterministic, the sources of one adjacency because `A` is reversible.  So the map
  factors through the quotient that the step makes (`MapsInto.of_isQuotientBy`).
* `MapsInto.extend`: the walk of an accepted sentence is followed by the run of `A`, also where it
  adds nodes.
-/

namespace StateMerging

/-! ## Reversible automata -/

/-- A partial deterministic automaton with at most one accepting state, in which no two states have
the same successor by one label. -/
structure Reversible (σ : Type*) where
  /-- The state after a token, if there is one. -/
  next : σ → String → Option σ
  /-- The state in which every run starts. -/
  initial : σ
  /-- The state in which an accepted run ends, if there is one. -/
  accepting : Option σ
  /-- States with one successor by a label are equal. -/
  eq_of_next : ∀ p q l r, next p l = some r → next q l = some r → p = q

namespace Reversible

variable {σ : Type*}

/-- The state after several tokens. -/
def run (A : Reversible σ) (p : σ) : List String → Option σ
  | [] => some p
  | t :: w => (A.next p t).bind fun q => A.run q w

/-- The run from the initial state ends in the accepting state. -/
def Accepts (A : Reversible σ) (w : List String) : Prop :=
  ∃ q, A.accepting = some q ∧ A.run A.initial w = some q

end Reversible

namespace Automaton

variable {σ : Type*} {A : Reversible σ} {φ : NodeId → σ} {a b : Automaton} {p q : NodeId}
  {h : NodeId → NodeId} {t : String} {w : List String} {x : σ}

/-! ## Maps into a reversible automaton -/

/-- The map sends edges to transitions, the start node to the initial state, and final nodes to the
accepting state. -/
structure MapsInto (φ : NodeId → σ) (a : Automaton) (A : Reversible σ) : Prop where
  start_eq : φ a.start = A.initial
  next_eq : ∀ p l q, a.Arc p l q → A.next (φ p) l = some (φ q)
  accepting_eq : ∀ q ∈ a.finals, A.accepting = some (φ q)

theorem mapsInto_empty (A : Reversible σ) : MapsInto (fun _ => A.initial) empty A where
  start_eq := rfl
  next_eq p l q h := by
    obtain ⟨e, he⟩ := h
    cases he
  accepting_eq q hq := absurd hq (SortedSet.not_mem_empty q)

namespace MapsInto

theorem run_eq (k : MapsInto φ a A) (hw : a.Path p w q) : A.run (φ p) w = some (φ q) := by
  induction hw with
  | nil => rfl
  | cons he _ ih =>
    rw [Reversible.run, k.next_eq _ _ _ (arc_of_edge? he)]
    exact ih

theorem accepts (k : MapsInto φ a A) (hw : a.Accepts w) : A.Accepts w := by
  obtain ⟨q, hq, hpath⟩ := hw
  refine ⟨φ q, k.accepting_eq q hq, ?_⟩
  rw [← k.start_eq]
  exact k.run_eq hpath

/-! ## Steps -/

/-- The nodes that a step has a reason to identify have one image. -/
theorem eq_of_candidate (k : MapsInto φ a A) (hpq : Candidate a p q) : φ p = φ q := by
  cases hpq with
  | finals _ hp hq =>
    exact Option.some.inj ((k.accepting_eq p hp).symm.trans (k.accepting_eq q hq))
  | targets _ _ hp hq =>
    exact Option.some.inj ((k.next_eq _ _ p hp).symm.trans (k.next_eq _ _ q hq))
  | sources _ _ _ _ hps hqs =>
    exact A.eq_of_next _ _ _ _ (k.next_eq _ _ _ hps) (k.next_eq _ _ _ hqs)

/-- The map factors through the quotient that a step makes. -/
theorem of_isQuotientBy (k : MapsInto φ a A) (ha : a.WellFormed)
    (hb : IsQuotientBy (Candidate a) h a b) : ∃ φ', MapsInto φ' b A := by
  have : Nonempty σ := ⟨A.initial⟩
  obtain ⟨φ', hφ⟩ := exists_factor (f := φ) fun p q hp hq heq =>
    eq_of_eqvGen (fun p q hpq => k.eq_of_candidate hpq) ((hb.eq_iff p q hp hq).1 heq)
  refine ⟨φ', ?_, fun p l q harc => ?_, fun q hq => ?_⟩
  · rw [hb.start_eq, hφ _ ha.start_live, k.start_eq]
  · obtain ⟨p', q', harc', rfl, rfl⟩ := hb.exists_arc harc
    rw [hφ p' (ha.isLive_source harc'), hφ q' (ha.isLive_target harc')]
    exact k.next_eq p' l q' harc'
  · obtain ⟨p, hp, rfl⟩ := (hb.mem_finals q).1 hq
    rw [hφ p (ha.isLive_of_mem_finals hp)]
    exact k.accepting_eq p hp

theorem advance (k : MapsInto φ a A) (ha : a.Coherent) : ∃ φ', MapsInto φ' a.advance A := by
  obtain ⟨report, b, h, hrun, -, hb, -⟩ := step_isQuotientBy ha.toContract
  rw [Automaton.advance, hrun]
  exact k.of_isQuotientBy ha.toWellFormed hb

theorem iterate (k : MapsInto φ a A) (ha : a.Coherent) (n : Nat) :
    ∃ φ', MapsInto φ' (Automaton.advance^[n] a) A := by
  induction n generalizing a φ with
  | zero => exact ⟨φ, k⟩
  | succ n ih =>
    obtain ⟨φ', k'⟩ := k.advance ha
    exact ih k' ha.advance

/-! ## Sentences -/

/-- A fresh node goes to the state that the token leads to. -/
theorem grow (k : MapsInto φ a A) (ha : a.WellFormed) (hq : a.isLive q = true)
    (hx : A.next (φ q) t = some x) :
    MapsInto (Function.update φ a.nodes.size x) (a.grow q t) A := by
  have hold (p) (hp : a.isLive p = true) : Function.update φ a.nodes.size x p = φ p :=
    Function.update_of_ne (ne_size_of_isLive hp) x φ
  refine ⟨?_, fun p l r harc => ?_, fun p hp => ?_⟩
  · exact (hold _ ha.start_live).trans k.start_eq
  · rcases arc_grow_iff.1 harc with harc | ⟨rfl, rfl, rfl⟩
    · rw [hold p (ha.isLive_source harc), hold r (ha.isLive_target harc)]
      exact k.next_eq p l r harc
    · rw [hold p hq, Function.update_self]
      exact hx
  · rw [hold p (ha.isLive_of_mem_finals hp)]
    exact k.accepting_eq p hp

/-- The walk of a list of tokens follows the run, also where it adds nodes. -/
theorem extend (k : MapsInto φ a A) (ha : a.WellFormed) (hq : a.isLive q = true)
    (hrun : A.run (φ q) w = some x) :
    ∃ φ', MapsInto φ' (a.extend q w).2 A ∧ φ' (a.extend q w).1 = x := by
  induction w generalizing a q φ with
  | nil => exact ⟨φ, k, Option.some.inj hrun⟩
  | cons t w ih =>
    obtain ⟨y, hy, hrest⟩ := Option.bind_eq_some_iff.1 hrun
    cases hs : a.successor q t with
    | some p =>
      have harc := ha.arc_of_successor hs
      obtain rfl : φ p = y := Option.some.inj ((k.next_eq q t p harc).symm.trans hy)
      rw [extend_of_successor w hs]
      exact ih k ha (ha.isLive_target harc) hrest
    | none =>
      rw [extend_of_grow w hs]
      refine ih (k.grow ha hq hy) (ha.grow hq) isLive_grow_size ?_
      rwa [Function.update_self]

theorem markFinal (k : MapsInto φ a A) (hq : A.accepting = some (φ q)) :
    MapsInto φ (a.markFinal q) A where
  start_eq := by rw [(a.markFinal_fields q).1, k.start_eq]
  next_eq p l r harc := by
    simp only [Arc, edge?_markFinal] at harc
    exact k.next_eq p l r harc
  accepting_eq p hp := by
    rcases (mem_finals_markFinal a q p).1 hp with ⟨rfl, -⟩ | hp
    · exact hq
    · exact k.accepting_eq p hp

theorem ingestTokens (k : MapsInto φ a A) (ha : a.WellFormed) (hw : A.Accepts w) :
    ∃ φ', MapsInto φ' (a.ingestTokens w) A := by
  obtain ⟨x, hx, hrun⟩ := hw
  rw [← k.start_eq] at hrun
  obtain ⟨φ', k', hend⟩ := k.extend ha ha.start_live hrun
  exact ⟨φ', k'.markFinal (by rw [hend, hx])⟩

/-! ## Runs -/

theorem perform (k : MapsInto φ a A) (ha : a.Coherent) (x : Action)
    (hx : ∀ s, x = .ingest s → A.Accepts (Text.tokens s)) : ∃ φ', MapsInto φ' (a.perform x) A := by
  cases x with
  | ingest s => exact k.ingestTokens ha.toWellFormed (hx s rfl)
  | step => exact k.advance ha
  | settle bound =>
    obtain ⟨n, -, heq⟩ := ha.settle_eq bound
    rw [Automaton.perform, heq]
    exact k.iterate ha n

theorem performAll (k : MapsInto φ a A) (ha : a.Coherent) (actions : List Action)
    (hA : ∀ s, .ingest s ∈ actions → A.Accepts (Text.tokens s)) :
    ∃ φ', MapsInto φ' (a.performAll actions) A := by
  induction actions generalizing a φ with
  | nil => exact ⟨φ, k⟩
  | cons x actions ih =>
    obtain ⟨φ', k'⟩ := k.perform ha x fun s hs => hA s (by simp [hs])
    exact ih k' (ha.perform x) fun s hs => hA s (List.mem_cons_of_mem x hs)

end MapsInto

/-- When a reversible automaton accepts all sentences of a run, it accepts whatever is accepted in
any state of the run: no merge goes beyond it. -/
theorem reversible_accepts_of_accepts (A : Reversible σ) (actions : List Action)
    (hA : ∀ s, .ingest s ∈ actions → A.Accepts (Text.tokens s)) :
    ∀ earlier, earlier <+: actions →
      ∀ w, (empty.performAll earlier).Accepts w → A.Accepts w := by
  intro earlier hearlier w hw
  obtain ⟨φ, k⟩ := (mapsInto_empty A).performAll coherent_empty earlier
    fun s hs => hA s (hearlier.subset hs)
  exact k.accepts hw

/-- The lists of `a` that have an odd length. -/
def odd : Reversible Bool where
  next p t := if t = "a" then some !p else none
  initial := false
  accepting := some true
  eq_of_next p q l r hp hq := by
    split at hp
    · rename_i hl
      simp only [hl, if_true] at hq
      exact Bool.not_inj (Option.some.inj (hp.trans hq.symm))
    · cases hp

theorem odd_accepts_of_accepts :
    odd.Accepts ["a"] ∧ odd.Accepts ["a", "a", "a"] ∧
      ¬ (empty.performAll [.ingest "a", .ingest "a a a", .settle 9]).Accepts ["a", "a"] := by
  have h₁ : odd.Accepts ["a"] := ⟨true, rfl, rfl⟩
  have h₃ : odd.Accepts ["a", "a", "a"] := ⟨true, rfl, rfl⟩
  refine ⟨h₁, h₃, fun hw => ?_⟩
  have tokens₁ : Text.tokens "a" = ["a"] := by decide +kernel
  have tokens₃ : Text.tokens "a a a" = ["a", "a", "a"] := by decide +kernel
  have h₂ := reversible_accepts_of_accepts odd [.ingest "a", .ingest "a a a", .settle 9]
    (by simp [tokens₁, tokens₃, h₁, h₃]) _ (List.prefix_refl _) _ hw
  obtain ⟨q, hq, hrun⟩ := h₂
  cases hq
  cases hrun

end Automaton

end StateMerging
