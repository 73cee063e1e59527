import StateMerging.Proofs.Columns
import StateMerging.Proofs.Lookups
import StateMerging.Proofs.Presentation

/-!
# The columns of a table line up

Whatever script the labels are written in, and whichever nodes are printed in a style, the lines of
a printed table take the same columns.  Each cell stands between blanks and each column between
bars, where columns add up, so that a padded cell fills its column; and the sequences around a name
take no columns.

* `Shows n cs`: the text takes `n` columns between the sequences in it.
* `Shows.cell`: a line of a cell that is not too wide fills its column.
* `shows_tableLines`: all lines of a table whose rows have as many cells take the same columns.
* `Automaton.table_lines_up`: so do all lines of the table of an automaton of a run, if no label
  holds an escape character.
-/

namespace StateMerging

namespace Text

variable {n m w : Nat} {c : Char} {cs ds : List Char}

/-! ## Shown texts -/

/-- The text takes so many columns: sequences with one parameter that set the rendition cut it in
parts without an escape character. -/
inductive Shows : Nat → List Char → Prop
  | text {cs : List Char} (h : escape ∉ cs) : Shows (width cs) cs
  | sequence {n : Nat} {cs digits ds : List Char} (h : escape ∉ cs)
    (hdigits : digits.all Char.isDigit = true) (rest : Shows n ds) :
    Shows (width cs + n) (cs ++ escape :: '[' :: (digits ++ 'm' :: ds))

theorem Shows.lineWidth_eq (h : Shows n cs) : lineWidth cs = n := by
  induction h with
  | text h => simp [lineWidth, segments_of_no_escape h]
  | @sequence n cs digits ds h hdigits _ ih =>
    rw [lineWidth, segments_append_control h hdigits, List.foldr_cons]
    exact congrArg (width cs + ·) ih

/-- Whether a character is one that the frame of a table is made of. -/
def isFrame (c : Char) : Bool := c = ' ' || c = '-' || c = '+' || c = '|'

theorem isSeparator_of_isFrame (hc : isFrame c = true) : isSeparator c = true := by
  simp only [isFrame, Bool.or_eq_true, decide_eq_true_eq, or_assoc] at hc
  rcases hc with rfl | rfl | rfl | rfl <;> decide

theorem ne_escape_of_isFrame (hc : isFrame c = true) : c ≠ escape := by
  rintro rfl
  exact absurd hc (by decide)

/-- The columns of texts of given widths, each with a blank on both sides and a bar behind it. -/
def framed : List Nat → Nat
  | [] => 0
  | w :: widths => w + 3 + framed widths

namespace Shows

theorem nil : Shows 0 [] := by
  have h : Shows (width []) [] := .text List.not_mem_nil
  exact h

/-- A character of the frame takes a column between two texts. -/
theorem append_cons (h : Shows m cs) (hc : isFrame c = true) (k : Shows n ds) :
    Shows (m + 1 + n) (cs ++ c :: ds) := by
  have hsep := isSeparator_of_isFrame hc
  have hne := ne_escape_of_isFrame hc
  have hfree {cs ds : List Char} (hcs : escape ∉ cs) (hds : escape ∉ ds) :
      escape ∉ cs ++ c :: ds := by simp [hcs, hds, hne.symm]
  induction h with
  | @text cs hcs =>
    cases k with
    | text hds => exact width_append_cons hsep cs _ ▸ .text (hfree hcs hds)
    | @sequence n cs' digits ds hcs' hdigits rest =>
      have := sequence (hfree hcs hcs') hdigits rest
      rw [width_append_cons hsep] at this
      simpa [Nat.add_assoc] using this
  | @sequence m cs digits cs' hcs hdigits _ ih =>
    have := sequence hcs hdigits ih
    simpa [Nat.add_assoc] using this

theorem replicate (hc : isFrame c = true) (n : Nat) : Shows n (List.replicate n c) := by
  induction n with
  | zero => exact nil
  | succ n ih =>
    have := nil.append_cons hc ih
    simpa [List.replicate_succ, Nat.add_comm] using this

theorem append_replicate (h : Shows m cs) (hc : isFrame c = true) (n : Nat) :
    Shows (m + n) (cs ++ List.replicate n c) := by
  cases n with
  | zero => simpa using h
  | succ n =>
    have := h.append_cons hc (replicate hc n)
    rwa [Nat.add_assoc, Nat.add_comm 1 n] at this

/-- A line that is not too wide fills its column. -/
theorem cell (h : Shows n cs) (hn : n ≤ w) : Shows (w + 2) (cell w cs) := by
  have hblank : isFrame ' ' = true := by decide
  have hfilled := h.append_replicate hblank (w - n)
  have hpadded := (nil.append_cons hblank hfilled).append_cons hblank nil
  have hcolumns : 0 + 1 + (n + (w - n)) + 1 + 0 = w + 2 := by omega
  rw [hcolumns] at hpadded
  simpa [Text.cell, h.lineWidth_eq] using hpadded

/-- Texts in columns of given widths, each closed by a character of the frame. -/
theorem intercalate (hc : isFrame c = true) {l : List (Nat × List Char)}
    (h : ∀ p ∈ l, Shows (p.1 + 2) p.2) (hne : l ≠ []) :
    Shows (framed (l.map (·.1))) ([c].intercalate (l.map (·.2)) ++ [c]) := by
  induction l with
  | nil => exact absurd rfl hne
  | cons p l ih =>
    have hp : Shows (p.1 + 2) p.2 := h p List.mem_cons_self
    cases l with
    | nil => simpa [framed] using hp.append_cons hc nil
    | cons q l =>
      have hrest := ih (fun r hr => h r (List.mem_cons_of_mem p hr)) (List.cons_ne_nil q l)
      have := hp.append_cons hc hrest
      simpa [framed, List.intercalate_cons_cons] using this

end Shows

/-! ## Cells of a single line -/

/-- The text is a single line that takes some columns. -/
def IsLine (text : String) : Prop := '\n' ∉ text.toList ∧ ∃ n, Shows n text.toList

theorem IsLine.of_not_mem {text : String} (hbreak : '\n' ∉ text.toList)
    (hescape : escape ∉ text.toList) : IsLine text := ⟨hbreak, _, .text hescape⟩

theorem IsLine.shows {text : String} (h : IsLine text) {line : List Char}
    (hline : line ∈ cellLines text) : ∃ n, Shows n line := by
  have hsplit : text.toList.splitOnP (· = '\n') = [text.toList] :=
    List.splitOnP_eq_singleton fun c hc => decide_eq_false fun e => h.1 (e ▸ hc)
  rw [cellLines, hsplit] at hline
  exact List.mem_singleton.1 hline ▸ h.2

/-! ## Tables -/

variable {rows : List (List String)} {k : Nat}

theorem Shows.bars {s : String} (hs : s.toList = [c]) (hc : isFrame c = true)
    {l : List (Nat × List Char)} (h : ∀ p ∈ l, Shows (p.1 + 2) p.2) (hne : l ≠ []) :
    Shows (1 + framed (l.map (·.1)))
      (s ++ s.intercalate (l.map fun p => String.ofList p.2) ++ s).toList := by
  have := nil.append_cons hc (intercalate hc h hne)
  simpa [hs, Function.comp_def] using this

theorem shows_rule {widths : List Nat} (hne : widths ≠ []) :
    Shows (1 + framed widths) (rule widths).toList := by
  let l := widths.map fun w => (w, List.replicate (w + 2) '-')
  have hl : ∀ p ∈ l, Shows (p.1 + 2) p.2 := by
    intro p hp
    obtain ⟨w, -, rfl⟩ := List.mem_map.1 hp
    exact .replicate (by decide) (w + 2)
  have := Shows.bars (s := "+") rfl (by decide) hl (by simpa [l] using hne)
  simpa [l, rule, Function.comp_def] using this

theorem foldl_max_le_iff {l : List Nat} : l.foldl max m ≤ n ↔ m ≤ n ∧ ∀ x ∈ l, x ≤ n := by
  induction l generalizing m with
  | nil => simp
  | cons x l ih => simp [ih, and_assoc]

theorem le_foldl_max {l : List Nat} (hn : n ∈ l) : n ≤ l.foldl max 0 :=
  (foldl_max_le_iff.1 (Nat.le_refl _)).2 n hn

/-- A table of rows with the same number of cells has as many columns. -/
theorem length_columnWidths (hrows : ∀ row ∈ rows, row.length = k) (hne : rows ≠ []) :
    (columnWidths rows).length = k := by
  obtain ⟨row, hrow⟩ := List.exists_mem_of_ne_nil rows hne
  rw [columnWidths, List.length_map, List.length_range]
  refine Nat.le_antisymm (foldl_max_le_iff.2 ⟨Nat.zero_le k, fun n hn => ?_⟩) ?_
  · obtain ⟨row', hrow', rfl⟩ := List.mem_map.1 hn
    exact Nat.le_of_eq (hrows row' hrow')
  · exact hrows row hrow ▸ le_foldl_max (List.mem_map_of_mem hrow)

/-- A column is as wide as each line of its cells. -/
theorem lineWidth_le_of_mem_zip {row : List String} (hrow : row ∈ rows) {lines : List (List Char)}
    (h : (w, lines) ∈ (columnWidths rows).zip (row.map cellLines)) {line : List Char}
    (hline : line ∈ lines) : lineWidth line ≤ w := by
  obtain ⟨i, hi, hget⟩ := List.mem_iff_getElem.1 h
  have hi' : i < row.length := by
    rw [List.length_zip, List.length_map] at hi
    exact (Nat.lt_min.1 hi).2
  simp only [List.getElem_zip, List.getElem_map, Prod.mk.injEq, columnWidths,
    List.getElem_range] at hget
  obtain ⟨rfl, rfl⟩ := hget
  have hcell : lineWidth line ≤ cellWidth row[i] := le_foldl_max (List.mem_map_of_mem hline)
  refine Nat.le_trans hcell (le_foldl_max (List.mem_map.2 ⟨row, hrow, ?_⟩))
  rw [List.getElem?_eq_getElem hi', Option.getD_some]

/-- Each line of a row fills the frame. -/
theorem shows_rowLines (hrows : ∀ row ∈ rows, row.length = k) (hk : 0 < k)
    (hcells : ∀ row ∈ rows, ∀ text ∈ row, IsLine text)
    {row : List String} (hrow : row ∈ rows) {s : String}
    (hs : s ∈ rowLines (columnWidths rows) row) :
    Shows (1 + framed (columnWidths rows)) s.toList := by
  have hlength := length_columnWidths hrows (List.ne_nil_of_mem hrow)
  obtain ⟨i, -, rfl⟩ := List.mem_map.1 hs
  let l := ((columnWidths rows).zip (row.map cellLines)).map fun p =>
    (p.1, cell p.1 ((p.2[i]?).getD []))
  have hfst : l.map (·.1) = columnWidths rows := by
    simp only [l, List.map_map, Function.comp_def]
    exact List.map_fst_zip (by simp [hlength, hrows row hrow])
  have hl : ∀ p ∈ l, Shows (p.1 + 2) p.2 := by
    intro p hp
    obtain ⟨⟨w, lines⟩, hzip, rfl⟩ := List.mem_map.1 hp
    cases hline : lines[i]? with
    | none => exact .cell .nil (Nat.zero_le _)
    | some line =>
      have hmem := List.mem_of_getElem? hline
      obtain ⟨text, htext, htextLines⟩ := List.mem_map.1 (List.of_mem_zip hzip).2
      obtain ⟨n, hn⟩ := (hcells row hrow text htext).shows (htextLines ▸ hmem)
      exact .cell hn (hn.lineWidth_eq ▸ lineWidth_le_of_mem_zip hrow hzip hmem)
  have hne : l ≠ [] := by
    intro hnil
    rw [hnil, List.map_nil] at hfst
    rw [← hfst, List.length_nil] at hlength
    exact Nat.ne_of_lt hk hlength
  have := Shows.bars (s := "|") rfl (by decide) hl hne
  rw [hfst] at this
  simpa [l, Function.comp_def] using this

/-- All lines of a table take the same columns. -/
theorem shows_tableLines (hrows : ∀ row ∈ rows, row.length = k) (hk : 0 < k) (hne : rows ≠ [])
    (hcells : ∀ row ∈ rows, ∀ text ∈ row, IsLine text)
    {s : String} (hs : s ∈ tableLines rows) : Shows (1 + framed (columnWidths rows)) s.toList := by
  have hlength := length_columnWidths hrows hne
  have hrule := shows_rule (List.ne_nil_of_length_pos (hlength ▸ hk))
  rcases List.mem_cons.1 hs with rfl | hs
  · exact hrule
  · obtain ⟨row, hrow, hs⟩ := List.mem_flatMap.1 hs
    rcases List.mem_append.1 hs with hs | hs
    · exact shows_rowLines hrows hk hcells hrow hs
    · exact List.mem_singleton.1 hs ▸ hrule

/-! ## Styles -/

theorem Shows.prepend {digits : List Char} (hdigits : digits.all Char.isDigit = true)
    (h : Shows n cs) : Shows n (escape :: '[' :: (digits ++ 'm' :: cs)) := by
  have hsequence := sequence List.not_mem_nil hdigits h
  rwa [show width [] = 0 from rfl, Nat.zero_add] at hsequence

theorem Shows.append_sequence {digits : List Char} (h : Shows n cs)
    (hdigits : digits.all Char.isDigit = true) :
    Shows n (cs ++ escape :: '[' :: (digits ++ ['m'])) := by
  induction h with
  | text h => exact sequence h hdigits nil
  | sequence h hdigits' _ ih => simpa using sequence h hdigits' ih

/-- A style takes no columns. -/
theorem Shows.apply {style : Style} (hs : style = .bold ∨ style = .green) {text : String}
    (h : Shows n text.toList) : Shows n (style.apply text).toList := by
  rcases hs with rfl | rfl
  · have hbold : ['1'].all Char.isDigit = true := rfl
    have hreset : ['0'].all Char.isDigit = true := rfl
    simpa [Style.apply, Style.bold, escape] using (h.append_sequence hreset).prepend hbold
  · have hgreen : ['3', '2'].all Char.isDigit = true := rfl
    have hdefault : ['3', '9'].all Char.isDigit = true := rfl
    simpa [Style.apply, Style.green, escape] using (h.append_sequence hdefault).prepend hgreen

end Text

/-! ## The table of a snapshot -/

namespace Snapshot

variable {s : Snapshot} {q : NodeId} {name : String}

theorem shows_showNode (hname : s.name? q = some name) (h : Text.escape ∉ name.toList) :
    ∃ n, Text.Shows n (s.showNode q).toList := by
  have htext : Text.Shows (Text.width name.toList) name.toList := .text h
  refine ⟨Text.width name.toList, ?_⟩
  simp only [showNode, hname, Option.getD_some]
  have hgreen : Text.Shows (Text.width name.toList)
      (if q ∈ s.accepting then Text.Style.green.apply name else name).toList := by
    split
    · exact htext.apply (Or.inr rfl)
    · exact htext
  split
  · exact hgreen.apply (Or.inl rfl)
  · exact hgreen

end Snapshot

namespace Automaton

variable {a : Automaton} {q : NodeId} {c : CombinedEdge}

theorem isLine_showNode (k : a.Numbered) (hq : a.isLive q = true) :
    Text.IsLine (a.snapshot.showNode q) := by
  refine ⟨k.not_mem_showNode hq (by decide) (by decide) (by decide), ?_⟩
  obtain ⟨name, hname⟩ := exists_name?_of_isLive hq
  refine Snapshot.shows_showNode (name?_snapshot a q ▸ hname) fun hmem => ?_
  rcases k.eq_comma_or_isDigit hname hmem with h | h
  · exact absurd h (by decide)
  · exact absurd h (by decide)

/-- A character of joined labels is one of the separator or of a label. -/
theorem mem_label_cases {x : Char} (hc : c ∈ a.snapshot.combined) (hx : x ∈ c.label.toList) :
    x = ',' ∨ x = ' ' ∨ ∃ l, a.Arc c.source l c.target ∧ x ∈ l.toList := by
  rw [CombinedEdge.label, String.toList_intercalate] at hx
  rcases mem_or_mem_of_mem_intercalate hx with hx | ⟨cs, hcs, hx⟩
  · simp only [String.reduceToList, List.mem_cons, List.not_mem_nil, or_false] at hx
    exact hx.imp_right Or.inl
  · obtain ⟨l, hl, rfl⟩ := List.mem_map.1 hcs
    obtain ⟨e, he⟩ := (Snapshot.mem_labels_of_mem_combined hc).1 hl
    exact Or.inr (Or.inr ⟨l, ⟨e, mem_edges_snapshot.1 he⟩, hx⟩)

theorem isLine_label (k : a.HasTokenLabels)
    (hescape : ∀ p l q, a.Arc p l q → Text.escape ∉ l.toList) (hc : c ∈ a.snapshot.combined) :
    Text.IsLine c.label := by
  refine .of_not_mem (fun hmem => ?_) fun hmem => ?_
  · rcases mem_label_cases hc hmem with h | h | ⟨l, harc, hl⟩
    · exact absurd h (by decide)
    · exact absurd h (by decide)
    · exact absurd ((k _ l _ harc).2 _ hl) (by decide)
  · rcases mem_label_cases hc hmem with h | h | ⟨l, harc, hl⟩
    · exact absurd h (by decide)
    · exact absurd h (by decide)
    · exact hescape _ l _ harc hl

/-- Each row of the table has three cells of a single line. -/
theorem Reachable.isLine_of_mem_rows (ha : a.Reachable)
    (hescape : ∀ p l q, a.Arc p l q → Text.escape ∉ l.toList) {row : List String}
    (hrow : row ∈ a.snapshot.rowsWith a.snapshot.showNode) :
    row.length = 3 ∧ ∀ text ∈ row, Text.IsLine text := by
  rcases List.mem_cons.1 hrow with rfl | hrow
  · refine ⟨rfl, fun text htext => .of_not_mem ?_ ?_⟩
    · revert text
      decide
    · revert text
      decide
  · obtain ⟨c, hc, rfl⟩ := List.mem_map.1 hrow
    refine ⟨rfl, fun text htext => ?_⟩
    obtain ⟨e, x, hx, hsource, htarget⟩ := Snapshot.exists_edge_of_mem_combined hc
    have hlive {q : NodeId} (hq : x.source = q ∨ x.target = q) : a.isLive q = true :=
      ha.coherent.toWellFormed.isLive_of_refersTo
        (Or.inr (Or.inr ⟨e, x, hx, Edge.incidentTo_iff.2 hq⟩))
    have hnumbered : a.Numbered := by
      obtain ⟨actions, rfl⟩ := ha
      exact numbered_performAll actions
    rcases (by simpa using htext : text = _ ∨ text = _ ∨ text = _) with rfl | rfl | rfl
    · exact isLine_showNode hnumbered (hlive (Or.inl hsource))
    · exact isLine_label ha.hasTokenLabels hescape hc
    · exact isLine_showNode hnumbered (hlive (Or.inr htarget))

/-- All lines of the table of an automaton of a run take the same columns, if no label holds an
escape character. -/
theorem table_lines_up (ha : a.Reachable)
    (hescape : ∀ p l q, a.Arc p l q → Text.escape ∉ l.toList) :
    ∃ n, ∀ line ∈ Text.tableLines (a.snapshot.rowsWith a.snapshot.showNode),
      Text.lineWidth line.toList = n := by
  have hrows : ∀ row ∈ a.snapshot.rowsWith a.snapshot.showNode,
      row.length = 3 ∧ ∀ text ∈ row, Text.IsLine text := fun _ => ha.isLine_of_mem_rows hescape
  refine ⟨_, fun line hline => (Text.shows_tableLines (fun row hrow => (hrows row hrow).1)
    (by decide) (List.cons_ne_nil _ _) (fun row hrow => (hrows row hrow).2) hline).lineWidth_eq⟩

end Automaton

end StateMerging
