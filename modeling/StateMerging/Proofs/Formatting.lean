import StateMerging.Command.Session
import StateMerging.Proofs.Layout
import StateMerging.Proofs.MinimalExtension

/-!
# The formatting of a file of sentences does not matter

A session drops the lines of its file that are blank when they are trimmed, and ingests the tokens
of the others.  If it keeps the blank lines, each of them is an empty sentence.  The empty sentence
marks the start, and a mark commutes with every sentence, because no walk looks at the final nodes;
so it matters only whether there is one.

* `Automaton.ingestTokens_markFinal`: a sentence and a mark in either order.
* `Automaton.foldl_ingestTokens_congr`: the position and the number of empty sentences do not
  matter.
* `Session.formatting_irrelevant`: what this means for a session on a file.
-/

namespace StateMerging

/-! ## Empty sentences -/

namespace Automaton

variable {a : Automaton} {p q : NodeId} {t : String} {w : List String}

/-- Automata that answer alike about nodes and edges, and have the same other fields, are equal. -/
theorem ext_node?_edge? {b : Automaton} (hnodes : a.nodes.size = b.nodes.size)
    (hedges : a.edges.size = b.edges.size) (hnode : ∀ p, a.node? p = b.node? p)
    (hedge : ∀ e, a.edge? e = b.edge? e) (hfinals : ∀ p, p ∈ a.finals ↔ p ∈ b.finals)
    (hname : a.nextName = b.nextName)
    (hrest : a.start = b.start ∧ a.phase = b.phase ∧ a.frontier = b.frontier) : a = b := by
  have hn : a.nodes = b.nodes := Arena.ext_get? hnodes hnode
  have he : a.edges = b.edges := Arena.ext_get? hedges hedge
  have hf : a.finals = b.finals := SortedSet.ext_mem hfinals
  obtain ⟨hstart, hphase, hfrontier⟩ := hrest
  cases a
  cases b
  simp_all

/-- Two nodes are marked in either order. -/
theorem markFinal_comm (a : Automaton) (p q : NodeId) :
    (a.markFinal p).markFinal q = (a.markFinal q).markFinal p := by
  refine ext_node?_edge? (by simp) (by simp) (fun r => ?_) (fun e => by simp only [edge?_markFinal])
    (fun r => ?_) (by simp only [nextName_markFinal]) (by simp only [markFinal_fields, and_self])
  · simp only [node?_markFinal]
    split <;> split <;> simp
  · simp only [mem_finals_markFinal, isLive_markFinal]
    tauto

theorem markFinal_markFinal_self (a : Automaton) (q : NodeId) :
    (a.markFinal q).markFinal q = a.markFinal q := by
  refine ext_node?_edge? (by simp) (by simp) (fun r => ?_) (fun e => by simp only [edge?_markFinal])
    (fun r => ?_) (by simp only [nextName_markFinal]) (by simp only [markFinal_fields, and_self])
  · simp only [node?_markFinal]
    split
    · cases a.node? r <;> rfl
    · rfl
  · simp only [mem_finals_markFinal, isLive_markFinal]
    tauto

theorem grow_markFinal (hp : a.isLive p = true) :
    (a.markFinal p).grow q t = (a.grow q t).markFinal p := by
  have hne : ¬ p = a.nodes.size := ne_size_of_isLive hp
  have hlive : (a.grow q t).isLive p = true := isLive_grow_iff.2 (Or.inr hp)
  refine ext_node?_edge? (by simp) (by simp) (fun r => ?_) (fun e => ?_) (fun r => ?_) ?_ ?_
  · simp only [node?_grow, node?_markFinal, nodes_size_markFinal, edges_size_markFinal,
      nextName_markFinal]
    by_cases hr : r = a.nodes.size
    · rw [if_pos hr, if_pos hr, if_neg fun h => hne (h.trans hr)]
    · rw [if_neg hr, if_neg hr]
      split
      · cases a.node? r <;> rfl
      · rfl
  · simp only [edge?_markFinal, edge?_grow, nodes_size_markFinal, edges_size_markFinal]
  · have hold := mem_finals_markFinal a p r
    have hnew := mem_finals_markFinal (a.grow q t) p r
    rw [hp] at hold
    rw [hlive] at hnew
    exact hold.trans hnew.symm
  · rw [nextName_markFinal, nextName_grow, nextName_grow, nextName_markFinal]
  · obtain ⟨hstart, hphase, hfrontier⟩ := markFinal_fields a p
    obtain ⟨hstart', hphase', hfrontier'⟩ := markFinal_fields (a.grow q t) p
    exact ⟨hstart.trans hstart'.symm, hphase.trans hphase'.symm, hfrontier.trans hfrontier'.symm⟩

/-- The walk of a sentence does not look at the final nodes. -/
theorem extend_markFinal (hp : a.isLive p = true) (q : NodeId) (w : List String) :
    (a.markFinal p).extend q w = ((a.extend q w).1, (a.extend q w).2.markFinal p) := by
  induction w generalizing a q with
  | nil => rfl
  | cons t w ih =>
    have hsucc := successor_markFinal a p q t
    cases hs : a.successor q t with
    | some r => rw [extend_of_successor w (hsucc.trans hs), extend_of_successor w hs, ih hp]
    | none =>
      rw [extend_of_grow w (hsucc.trans hs), extend_of_grow w hs, grow_markFinal hp,
        nodes_size_markFinal, ih (isLive_grow_iff.2 (Or.inr hp))]

theorem ingestTokens_markFinal (hp : a.isLive p = true) (w : List String) :
    (a.markFinal p).ingestTokens w = (a.ingestTokens w).markFinal p := by
  rw [ingestTokens, (a.markFinal_fields p).1, extend_markFinal hp, ingestTokens]
  exact markFinal_comm ..

theorem ingestTokens_nil (a : Automaton) : a.ingestTokens [] = a.markFinal a.start := rfl

/-- Sentences make no difference to a mark, and a mark none to them. -/
theorem foldl_ingestTokens_markFinal (ha : a.WellFormed) (hp : a.isLive p = true)
    (ws : List (List String)) :
    ws.foldl ingestTokens (a.markFinal p) = (ws.foldl ingestTokens a).markFinal p := by
  induction ws generalizing a with
  | nil => rfl
  | cons w ws ih =>
    obtain ⟨hwf, hext, -⟩ := ingestTokens_spec ha w
    rw [List.foldl_cons, List.foldl_cons, ingestTokens_markFinal hp, ih hwf (hext.isLive p hp)]

/-- An empty sentence marks the start, wherever it stands. -/
theorem foldl_ingestTokens_eq (ha : a.WellFormed) (ws : List (List String)) :
    ws.foldl ingestTokens a =
      if [] ∈ ws then ((ws.filter (· ≠ [])).foldl ingestTokens a).markFinal a.start
      else (ws.filter (· ≠ [])).foldl ingestTokens a := by
  induction ws generalizing a with
  | nil => simp
  | cons w ws ih =>
    obtain ⟨hwf, hext, -⟩ := ingestTokens_spec ha w
    cases w with
    | nil =>
      rw [List.foldl_cons, ingestTokens_nil, foldl_ingestTokens_markFinal ha ha.start_live, ih ha,
        if_pos List.mem_cons_self, List.filter_cons_of_neg (by simp)]
      split
      · exact markFinal_markFinal_self ..
      · rfl
    | cons t w =>
      have hmem : [] ∈ (t :: w) :: ws ↔ [] ∈ ws := by simp
      rw [List.foldl_cons, ih hwf, hext.start_eq, List.filter_cons_of_pos (by simp),
        List.foldl_cons]
      simp only [hmem]

/-- Only whether there is an empty sentence matters, and not where and how often. -/
theorem foldl_ingestTokens_congr (ha : a.WellFormed) {ws ws' : List (List String)}
    (hfilter : ws.filter (· ≠ []) = ws'.filter (· ≠ [])) (hempty : [] ∈ ws ↔ [] ∈ ws') :
    ws.foldl ingestTokens a = ws'.foldl ingestTokens a := by
  rw [foldl_ingestTokens_eq ha ws, foldl_ingestTokens_eq ha ws', hfilter]
  simp only [hempty]

theorem ingestAll_eq_foldl (a : Automaton) (ss : List String) :
    a.ingestAll ss = (ss.map Text.tokens).foldl ingestTokens a := by
  rw [ingestAll, List.foldl_map]
  rfl

end Automaton

/-! ## Sessions on a file -/

namespace Command.Session

open Text (tokenLines SameTokens)

variable {o : Options} {path path' s t : String}

/-- A session whose file holds a text. -/
def runOn (o : Options) (path text : String) (input : Text.LineStream) : Transcript :=
  run { o with file := some path } (.ok (.ofBytes text.toByteArray)) input

theorem map_tokens_fileSentences (keepEmpty : Bool) (s : String) :
    (fileSentences keepEmpty (Text.lines s)).map Text.tokens =
      if keepEmpty then tokenLines s else (tokenLines s).filter (· ≠ []) := by
  cases keepEmpty with
  | true => rfl
  | false =>
    have hblank (l : String) : (!Text.isBlankLine l) = decide (Text.tokens l ≠ []) := by
      rw [Bool.eq_iff_iff, decide_eq_true_iff, ne_eq, ← Text.isBlankLine_iff]
      simp
    simp only [fileSentences, hblank, tokenLines, Bool.false_eq_true, if_false]
    rw [List.filter_map]
    rfl

theorem initial_file (o : Options) (path s : String) :
    initial { o with file := some path } (.ok (.ofBytes s.toByteArray)) =
      .ok ((if o.keepEmpty then tokenLines s else (tokenLines s).filter (· ≠ [])).foldl
        Automaton.ingestTokens (Automaton.empty.ingestAll o.sentences)) := by
  rw [← map_tokens_fileSentences, ← Automaton.ingestAll_eq_foldl,
    Text.LineStream.ofBytes_toByteArray, Automaton.ingestAll, Automaton.ingestAll,
    ← List.foldl_append]
  rfl

theorem initial_congr (h : SameTokens o.keepEmpty s t) :
    initial { o with file := some path } (.ok (.ofBytes s.toByteArray)) =
      initial { o with file := some path' } (.ok (.ofBytes t.toByteArray)) := by
  rw [initial_file, initial_file]
  cases hkeep : o.keepEmpty with
  | false => simp only [Bool.false_eq_true, if_false, h.filter_eq]
  | true =>
    have hwf := (Automaton.coherent_empty.ingestAll o.sentences).toWellFormed
    have hfold := Automaton.foldl_ingestTokens_congr hwf h.filter_eq (h.mem_iff hkeep)
    simp only [if_true, hfold]

theorem runOn_congr (h : SameTokens o.keepEmpty s t) (path path' : String)
    (input : Text.LineStream) : runOn o path s input = runOn o path' t input := by
  rw [runOn, runOn, run, run, play, play, initial_congr h]

/-- Of two files with texts, only the tokens of their lines matter to a session, and of lines
without tokens only, if blank lines are kept, whether there are any.  So no change of formatting
matters.  If blank lines are not kept, a file of such lines alone gives the empty automaton. -/
theorem formatting_irrelevant (o : Options) (path path' : String) (input : Text.LineStream) :
    (∀ s t, (tokenLines s).filter (· ≠ []) = (tokenLines t).filter (· ≠ []) →
      (o.keepEmpty = true → ([] ∈ tokenLines s ↔ [] ∈ tokenLines t)) →
      runOn o path s input = runOn o path' t input) ∧
    (∀ s t, Text.Reformats o.keepEmpty s t → runOn o path s input = runOn o path' t input) ∧
    (o.keepEmpty = false → o.sentences = [] → ∀ s, (∀ l ∈ Text.lines s, Text.isBlankLine l = true) →
      initial { o with file := some path } (.ok (.ofBytes s.toByteArray)) = .ok Automaton.empty) := by
  refine ⟨fun s t hfilter hmem => runOn_congr ⟨hfilter, hmem⟩ path path' input,
    fun s t h => runOn_congr h.sameTokens path path' input, fun hkeep hnone s hblank => ?_⟩
  have hrows : (tokenLines s).filter (· ≠ []) = [] := by
    simpa [tokenLines, Text.isBlankLine_iff] using hblank
  rw [initial_file, hkeep, hnone, if_neg Bool.false_ne_true, hrows]
  rfl

/-- The same sentences twice, with blanks and blank lines of many kinds; and a file of blank lines
alone, which does not give the sample. -/
theorem formatting_of_pies :
    runOn {} "pies" "Mary eats pies\nJohn bakes cakes\n" (.ofText "\n\n") =
      runOn {} "cakes" "\n\u3000Mary eats\tpies \r\n \u2003\n\nJohn\u00a0\u00a0bakes\u0085cakes"
        (.ofText "\n\n") ∧
    runOn { keepEmpty := true } "pies" "\nMary eats pies" (.ofText "") =
      runOn { keepEmpty := true } "cakes" "Mary eats pies\r\n\r\n \u2028\n" (.ofText "") ∧
    runOn { keepEmpty := true } "pies" "a\n\nb\n" (.ofText "") =
      runOn { keepEmpty := true } "pies" "a\r\n\r\nb\r\n" (.ofText "") ∧
    initial { file := some "blank" } (.ok (.ofBytes " \n\t\r\n".toByteArray)) = .ok Automaton.empty ∧
    initial {} (.error .notFound) ≠ .ok Automaton.empty := by
  have hreturns : Text.withReturns "a\n\nb\n" = "a\r\n\r\nb\r\n" := by decide +kernel
  refine ⟨?_, ?_, ?_, ?_, by decide +kernel⟩
  · exact (formatting_irrelevant {} "pies" "cakes" _).1 _ _ (by decide +kernel) (by decide)
  · exact (formatting_irrelevant { keepEmpty := true } "pies" "cakes" _).1 _ _ (by decide +kernel)
      (by decide +kernel)
  · exact (formatting_irrelevant { keepEmpty := true } "pies" "pies" _).2.1 _ _
      (hreturns ▸ .returns "a\n\nb\n")
  · exact (formatting_irrelevant {} "blank" "blank" (.ofText "")).2.2 rfl rfl _ (by decide +kernel)

end Command.Session

end StateMerging
