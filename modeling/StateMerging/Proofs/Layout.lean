import Mathlib.Data.List.Basic
import Mathlib.Data.List.Induction
import Mathlib.Data.List.TakeWhile
import StateMerging.Text.Lines

/-!
# Texts that differ in their formatting

The words of a line are separated by runs of blanks, and it does not matter of which blanks and how
many.  The words of the lines of a text follow from three equations: a text without a line feed is
one line, unless it is empty; a line feed ends a line; and there are no other texts
(`line_induction`).

* `words_append_cons`: a blank separates words, the equation from which all others about words
  follow.
* `isBlankLine_iff`: nothing is left of a line when it is trimmed exactly if it has no words.
* `rows_line`, `rows_last`: the equations for lines.
* `rows_append_congr`, `rows_append`: a change of a text is looked at in one line only.
* `Reformats.sameTokens`: the changes of a text that are only formatting, and what they keep.
-/

namespace StateMerging.Text

/-! ## Words -/

/-- The runs of characters that are not blank. -/
def words (cs : List Char) : List String :=
  ((cs.splitOnP isBlank).filter (· ≠ [])).map String.ofList

variable {u v w w' : List Char} {c : Char}

theorem tokens_eq_words (s : String) : tokens s = words s.toList := rfl

@[simp] theorem words_nil : words [] = [] := by simp [words]

/-- A blank separates words. -/
theorem words_append_cons (hc : isBlank c = true) (u v : List Char) :
    words (u ++ c :: v) = words u ++ words v := by
  rw [words, List.splitOnP_append_cons u v hc, List.filter_append, List.map_append]
  rfl

theorem words_cons_of_blank (hc : isBlank c = true) (v : List Char) : words (c :: v) = words v :=
  words_append_cons hc [] v

theorem words_cons_ne_nil (hc : isBlank c = false) (v : List Char) : words (c :: v) ≠ [] := by
  obtain ⟨x, xs, hsplit⟩ := List.exists_cons_of_ne_nil (List.splitOnP_ne_nil isBlank v)
  simp [words, List.splitOnP_cons_eq_if_modifyHead, hc, hsplit]

/-- Only blanks have no words. -/
theorem words_eq_nil_iff : words w = [] ↔ ∀ c ∈ w, isBlank c = true := by
  induction w with
  | nil => simp
  | cons c w ih =>
    cases hc : isBlank c with
    | false => simp [words_cons_ne_nil hc, hc]
    | true => simp [words_cons_of_blank hc, ih, hc]

theorem words_append_of_blank (hw : ∀ c ∈ w, isBlank c = true) (u : List Char) :
    words (u ++ w) = words u := by
  cases w with
  | nil => rw [List.append_nil]
  | cons c w =>
    rw [words_append_cons (hw c List.mem_cons_self),
      words_eq_nil_iff.2 fun d hd => hw d (List.mem_cons_of_mem c hd), List.append_nil]

theorem words_blank_append (hw : ∀ c ∈ w, isBlank c = true) (v : List Char) :
    words (w ++ v) = words v := by
  induction w with
  | nil => rfl
  | cons c w ih =>
    rw [List.cons_append, words_cons_of_blank (hw c List.mem_cons_self),
      ih fun d hd => hw d (List.mem_cons_of_mem c hd)]

theorem words_append_blank_append (hne : w ≠ []) (hw : ∀ c ∈ w, isBlank c = true)
    (u v : List Char) : words (u ++ (w ++ v)) = words u ++ words v := by
  obtain ⟨c, w, rfl⟩ := List.exists_cons_of_ne_nil hne
  rw [List.cons_append, words_append_cons (hw c List.mem_cons_self),
    words_blank_append fun d hd => hw d (List.mem_cons_of_mem c hd)]

/-- Trimming a line and splitting it find the same lines blank. -/
theorem isBlankLine_iff {s : String} : isBlankLine s = true ↔ tokens s = [] := by
  have htrim : isBlankLine s = true ↔ ∀ c ∈ s.toList.dropWhile isBlank, isBlank c = true := by
    rw [isBlankLine, decide_eq_true_iff, trim, String.ofList_eq_empty_iff, List.reverse_eq_nil_iff,
      List.dropWhile_eq_nil_iff]
    simp only [List.mem_reverse]
  rw [htrim, tokens_eq_words, words_eq_nil_iff]
  constructor
  · intro h c hc
    rw [← List.takeWhile_append_dropWhile (p := isBlank) (l := s.toList), List.mem_append] at hc
    exact hc.elim (List.mem_takeWhile_imp) (h c)
  · exact fun h c hc => h c ((List.dropWhile_sublist _).mem hc)

/-! ## Rows of tokens -/

/-- The tokens of each line of a text. -/
def tokenLines (s : String) : List (List String) := (lines s).map tokens

/-- The tokens of each line. -/
def rows (cs : List Char) : List (List String) := tokenLines (String.ofList cs)

theorem tokenLines_eq_rows (s : String) : tokenLines s = rows s.toList := by
  rw [rows, String.ofList_toList]

theorem words_chopReturn (u : List Char) : words (chopReturn u) = words u := by
  unfold chopReturn
  split
  · rename_i hlast
    obtain ⟨v, rfl⟩ := List.getLast?_eq_some_iff.1 hlast
    have hblank : ∀ c ∈ ['\r'], isBlank c = true := List.forall_mem_singleton.2 (by decide)
    rw [List.dropLast_concat, words_append_of_blank hblank]
  · rfl

theorem rows_line (hu : '\n' ∉ u) (v : List Char) : rows (u ++ '\n' :: v) = words u :: rows v := by
  have hsplit : (u ++ '\n' :: v).splitOnP (· = '\n') = u :: v.splitOnP (· = '\n') :=
    List.splitOnP_append_cons_of_forall_mem (by simpa using fun c hc => ne_of_mem_of_not_mem hc hu)
      '\n' (by simp) v
  have hne := List.splitOnP_ne_nil (fun c => decide (c = '\n')) v
  rw [rows, tokenLines, lines, String.toList_ofList, hsplit, List.dropLast_cons_of_ne_nil hne,
    List.getLast?_cons, rows, tokenLines, lines, String.toList_ofList]
  simp [tokens_eq_words, words_chopReturn, List.getLast?_eq_some_getLast hne]

theorem rows_last (hu : '\n' ∉ u) (hne : u ≠ []) : rows u = [words u] := by
  have hsplit : u.splitOnP (· = '\n') = [u] :=
    List.splitOnP_eq_singleton (by simpa using fun c hc => ne_of_mem_of_not_mem hc hu)
  simp [rows, tokenLines, lines, hsplit, hne, tokens_eq_words]

@[simp] theorem rows_nil : rows [] = [] := by simp [rows, tokenLines]

/-- A text has no line feed, or a line in front of its first one. -/
theorem line_cases (cs : List Char) :
    '\n' ∉ cs ∨ ∃ u v, cs = u ++ '\n' :: v ∧ '\n' ∉ u :=
  (Decidable.em ('\n' ∈ cs)).symm.imp_right List.eq_append_cons_of_mem

/-- A text is what follows its last line feed, or a line in front of a text. -/
theorem line_induction {P : List Char → Prop} (last : ∀ u, '\n' ∉ u → P u)
    (line : ∀ u v, '\n' ∉ u → P v → P (u ++ '\n' :: v)) (cs : List Char) : P cs := by
  induction hlen : cs.length using Nat.strongRecOn generalizing cs with
  | ind n ih =>
    rcases line_cases cs with hcs | ⟨u, v, rfl, hu⟩
    · exact last cs hcs
    · have hlt : v.length < n := by
        rw [← hlen, List.length_append, List.length_cons]
        omega
      exact line u v hu (ih v.length hlt v rfl)

/-- What follows on a first part of a text matters only as far as it matters to the last line of
that part. -/
theorem rows_append_congr (h : ∀ l, '\n' ∉ l → rows (l ++ v) = rows (l ++ w)) (u : List Char) :
    rows (u ++ v) = rows (u ++ w) := by
  induction u using line_induction with
  | last u hu => exact h u hu
  | line u cs hu ih =>
    simp only [List.append_assoc, List.cons_append]
    rw [rows_line hu, rows_line hu, ih]

/-- Behind a line feed, and at the beginning of a text, a line starts. -/
def StartsLine (u : List Char) : Prop := ∀ c, u.getLast? = some c → c = '\n'

theorem rows_append (hu : StartsLine u) (v : List Char) : rows (u ++ v) = rows u ++ rows v := by
  induction u using line_induction with
  | last u hlast =>
    cases u using List.reverseRecOn with
    | nil => simp
    | append_singleton u c =>
      obtain rfl := hu c (by simp)
      simp at hlast
  | line u cs hline ih =>
    have hcs : StartsLine cs := by
      intro c hc
      refine hu c ?_
      rw [List.getLast?_append, List.getLast?_cons, hc]
      rfl
    simp only [List.append_assoc, List.cons_append]
    rw [rows_line hline, rows_line hline, ih hcs, List.cons_append]

/-- Blanks that do not end a line. -/
def IsGap (w : List Char) : Prop := ∀ c ∈ w, isBlank c = true ∧ c ≠ '\n'

namespace IsGap

theorem isBlank (hw : IsGap w) : ∀ c ∈ w, Text.isBlank c = true := fun c hc => (hw c hc).1

theorem not_mem (hw : IsGap w) : '\n' ∉ w := fun h => (hw _ h).2 rfl

/-- Words that a gap separates are separated by every gap. -/
theorem rows_between (hw : IsGap w) (hne : w ≠ []) (hw' : IsGap w') (hne' : w' ≠ [])
    (u v : List Char) : rows (u ++ (w ++ v)) = rows (u ++ (w' ++ v)) := by
  refine rows_append_congr (fun l hl => ?_) u
  have hline {x y : List Char} (hx : IsGap x) (hy : '\n' ∉ y) : '\n' ∉ l ++ (x ++ y) := by
    simp [hl, hx.not_mem, hy]
  have hwords (y : List Char) : words (l ++ (w ++ y)) = words (l ++ (w' ++ y)) := by
    rw [words_append_blank_append hne hw.isBlank, words_append_blank_append hne' hw'.isBlank]
  rcases line_cases v with hv | ⟨v, cs, rfl, hv⟩
  · rw [rows_last (hline hw hv) (by simp [hne]), rows_last (hline hw' hv) (by simp [hne']), hwords]
  · have hassoc (x : List Char) : l ++ (x ++ (v ++ '\n' :: cs)) = l ++ (x ++ v) ++ '\n' :: cs := by
      simp
    rw [hassoc, hassoc, rows_line (hline hw hv), rows_line (hline hw' hv), hwords]

/-- Blanks at the end of a line. -/
theorem rows_before_feed (hw : IsGap w) (u v : List Char) :
    rows (u ++ (w ++ '\n' :: v)) = rows (u ++ '\n' :: v) := by
  refine rows_append_congr (fun l hl => ?_) u
  have hline : '\n' ∉ l ++ w := by simp [hl, hw.not_mem]
  rw [← List.append_assoc, rows_line hline, rows_line hl, words_append_of_blank hw.isBlank]

/-- Blanks at the beginning of a line. -/
theorem rows_gap_append (hw : IsGap w) (hne : v ≠ []) : rows (w ++ v) = rows v := by
  have hline {u : List Char} (hu : '\n' ∉ u) : '\n' ∉ w ++ u := by simp [hw.not_mem, hu]
  rcases line_cases v with hv | ⟨v, cs, rfl, hv⟩
  · rw [rows_last (hline hv) (by simp [hne]), rows_last hv hne, words_blank_append hw.isBlank]
  · rw [← List.append_assoc, rows_line (hline hv), rows_line hv, words_blank_append hw.isBlank]

/-- A blank line of its own. -/
theorem rows_gap_line (hw : IsGap w) (v : List Char) : rows (w ++ '\n' :: v) = [] :: rows v := by
  rw [rows_line hw.not_mem, words_eq_nil_iff.2 hw.isBlank]

end IsGap

/-- A last line may end without a line feed. -/
theorem rows_append_feed {c : Char} (hlast : u.getLast? = some c) (hc : c ≠ '\n') :
    rows (u ++ ['\n']) = rows u := by
  induction u using line_induction with
  | last u hu =>
    have hne : u ≠ [] := by
      rintro rfl
      simp at hlast
    rw [rows_line hu, rows_last hu hne, rows_nil]
  | line u cs hu ih =>
    rw [List.append_assoc, List.cons_append, rows_line hu, rows_line hu, ih]
    rw [List.getLast?_append, List.getLast?_cons] at hlast
    cases hcs : cs.getLast? with
    | none =>
      rw [hcs] at hlast
      exact absurd (Option.some.inj hlast).symm hc
    | some d =>
      rw [hcs] at hlast
      exact hlast

/-- The text with a carriage return in front of each line feed. -/
def withReturns (s : String) : String :=
  String.ofList (s.toList.flatMap fun c => if c = '\n' then ['\r', '\n'] else [c])

theorem rows_withReturns (cs : List Char) :
    rows (cs.flatMap fun c => if c = '\n' then ['\r', '\n'] else [c]) = rows cs := by
  have hself {u : List Char} (hu : '\n' ∉ u) :
      (u.flatMap fun c => if c = '\n' then ['\r', '\n'] else [c]) = u := by
    rw [List.flatMap_congr fun c hc => if_neg (ne_of_mem_of_not_mem hc hu)]
    exact List.flatMap_singleton' u
  induction cs using line_induction with
  | last u hu => rw [hself hu]
  | line u cs hu ih =>
    have hreturn : IsGap ['\r'] := List.forall_mem_singleton.2 (by decide)
    have hline : '\n' ∉ u ++ ['\r'] := by simp [hu]
    rw [List.flatMap_append, hself hu, List.flatMap_cons, if_pos rfl, rows_line hu, ← ih]
    exact (hreturn.rows_before_feed u _).trans (rows_line hu _)

/-! ## Formatting -/

/-- A change of a text that is only one of formatting.  A blank line may come or go, but if blank
lines are kept it may not be the only one. -/
inductive Reformats (keepEmpty : Bool) : String → String → Prop
  /-- Lines end with a carriage return and a line feed. -/
  | returns (s : String) : Reformats keepEmpty s (withReturns s)
  /-- The last line ends with a line feed. -/
  | lastFeed {s : String} {c : Char} (hlast : s.toList.getLast? = some c) (hc : c ≠ '\n') :
    Reformats keepEmpty s (s ++ "\n")
  /-- Other blanks stand between two words, or more of them or fewer. -/
  | between (s t : String) {w w' : String} (hw : IsGap w.toList) (hne : w ≠ "")
    (hw' : IsGap w'.toList) (hne' : w' ≠ "") : Reformats keepEmpty (s ++ w ++ t) (s ++ w' ++ t)
  /-- Blanks stand at the end of a line. -/
  | trailing (s t : String) {w : String} (hw : IsGap w.toList) :
    Reformats keepEmpty (s ++ "\n" ++ t) (s ++ w ++ "\n" ++ t)
  /-- Blanks stand at the beginning of a line. -/
  | leading {s t w : String} (hs : StartsLine s.toList) (hw : IsGap w.toList) (hne : t ≠ "") :
    Reformats keepEmpty (s ++ t) (s ++ w ++ t)
  /-- A blank line stands between two lines, or before the first or behind the last. -/
  | blankLine {s t w : String} (hs : StartsLine s.toList) (hw : IsGap w.toList)
    (hkeep : keepEmpty = true → [] ∈ tokenLines (s ++ t)) :
    Reformats keepEmpty (s ++ t) (s ++ w ++ "\n" ++ t)

/-- Two texts have the same tokens in the lines that have some, and if blank lines are kept, both
have a line without tokens or neither has. -/
structure SameTokens (keepEmpty : Bool) (s t : String) : Prop where
  filter_eq : (tokenLines s).filter (· ≠ []) = (tokenLines t).filter (· ≠ [])
  mem_iff : keepEmpty = true → ([] ∈ tokenLines s ↔ [] ∈ tokenLines t)

theorem SameTokens.of_rows {keepEmpty : Bool} {s t : String} (h : rows s.toList = rows t.toList) :
    SameTokens keepEmpty s t := by
  have heq : tokenLines s = tokenLines t := by rw [tokenLines_eq_rows, tokenLines_eq_rows, h]
  exact ⟨by rw [heq], fun _ => by rw [heq]⟩

theorem Reformats.sameTokens {keepEmpty : Bool} {s t : String} (h : Reformats keepEmpty s t) :
    SameTokens keepEmpty s t := by
  cases h with
  | returns s =>
    refine .of_rows ?_
    rw [withReturns, String.toList_ofList, rows_withReturns]
  | lastFeed hlast hc =>
    refine .of_rows ?_
    rw [String.toList_append]
    exact (rows_append_feed hlast hc).symm
  | between s t hw hne hw' hne' =>
    refine .of_rows ?_
    simp only [String.toList_append, List.append_assoc]
    exact hw.rows_between (by simpa using hne) hw' (by simpa using hne') _ _
  | trailing s t hw =>
    refine .of_rows ?_
    simp only [String.toList_append, List.append_assoc]
    exact (hw.rows_before_feed _ _).symm
  | leading hs hw hne =>
    refine .of_rows ?_
    simp only [String.toList_append, List.append_assoc]
    rw [rows_append hs, rows_append hs, hw.rows_gap_append (by simpa using hne)]
  | @blankLine s t w hs hw hkeep =>
    -- The only change that adds a row, which is empty.
    have hrows : tokenLines (s ++ w ++ "\n" ++ t) = tokenLines s ++ [] :: tokenLines t := by
      simp only [tokenLines_eq_rows, String.toList_append, List.append_assoc]
      rw [rows_append hs]
      exact congrArg _ (hw.rows_gap_line t.toList)
    have hrows' : tokenLines (s ++ t) = tokenLines s ++ tokenLines t := by
      simp only [tokenLines_eq_rows, String.toList_append]
      rw [rows_append hs]
    refine ⟨?_, fun hk => ⟨fun _ => ?_, fun _ => hkeep hk⟩⟩
    · rw [hrows, hrows', List.filter_append, List.filter_append, List.filter_cons_of_neg (by simp)]
    · rw [hrows]
      simp

end StateMerging.Text
