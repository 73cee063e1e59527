import StateMerging.Text.Width

/-!
# Columns add up at separators

A text is measured from its end, and some characters take back columns that were counted for what
follows them: regional indicators that make a flag, the sign that puts a Khmer letter below another
one, a Tifinagh joiner.  `Following.reserve` is how many may still be taken back.

* `reserve_measure_le`: no more may be taken back than was counted, so that the columns of a text
  are never negative (`measure_nonneg`).
* `width_append_cons`: a separator takes one column whatever stands beside it, and the columns
  before it and behind it add up.
-/

namespace StateMerging.Text

/-! ## Columns that may be taken back -/

/-- The columns counted for a letter that a character before it may take back. -/
def Joined.reserve : Joined → Int
  | .coeng | .joinedConsonant => 1
  | _ => 0

/-- The columns counted for what follows that a character before it may take back. -/
def Following.reserve : Following → Int
  | .letter l .. => l.reserve
  | .joinedRegional | .joinedRegionals false => 1
  | _ => 0

namespace Following

theorem reserve_nonneg (f : Following) : 0 ≤ f.reserve := by
  unfold reserve Joined.reserve
  repeat' split
  all_goals decide

theorem reserve_le_one (f : Following) : f.reserve ≤ 1 := by
  unfold reserve Joined.reserve
  repeat' split
  all_goals decide

theorem reserve_selectEmoji_le (f : Following) : f.selectEmoji.reserve ≤ f.reserve := by
  unfold selectEmoji
  split
  · exact Int.le_refl _
  · exact Int.le_refl _
  · exact f.reserve_nonneg

theorem reserve_selectText_le (f : Following) : f.selectText.reserve ≤ f.reserve := by
  unfold selectText
  split
  · exact Int.le_refl _
  · exact f.reserve_nonneg

theorem reserve_dropEmoji_le (f : Following) : f.dropEmoji.reserve ≤ f.reserve := by
  unfold dropEmoji
  split <;> exact Int.le_refl _

theorem reserve_dropText_le (f : Following) : f.dropText.reserve ≤ f.reserve := by
  unfold dropText
  split <;> exact Int.le_refl _

theorem reserve_ofChar_eq_zero {c : Char} (h : coengLetter.contains c = false) :
    (ofChar c).reserve = 0 := by
  unfold ofChar
  rw [h]
  repeat' split
  all_goals first | rfl | contradiction

end Following

/-! ## Characters with columns -/

/-- No range of one list meets a range of the other. -/
def Ranges.disjoint (r s : Ranges) : Bool := r.all fun p => s.all fun q => p.2 < q.1 || q.2 < p.1

theorem Ranges.contains_eq_false {r s : Ranges} (h : r.disjoint s = true) {c : Char}
    (hc : r.contains c = true) : s.contains c = false := by
  obtain ⟨p, hp, hpc⟩ := List.any_eq_true.1 hc
  refine List.any_eq_false.2 fun q hq hqc => ?_
  have hpq := List.all_eq_true.1 (List.all_eq_true.1 h p hp) q hq
  simp only [Bool.and_eq_true, Bool.or_eq_true, decide_eq_true_eq] at hpc hqc hpq
  omega

theorem one_le_charWidth {c : Char} (h : zeroWidth.contains c = false) : 1 ≤ charWidth c := by
  simp only [charWidth, h, Bool.false_eq_true, if_false]
  repeat' split
  all_goals decide

/-- The letters that can be written below take a column. -/
theorem reserve_ofChar_le (c : Char) : (Following.ofChar c).reserve ≤ charWidth c := by
  cases hc : coengLetter.contains c with
  | false =>
    rw [Following.reserve_ofChar_eq_zero hc]
    exact Int.natCast_nonneg _
  | true =>
    have hwidth := one_le_charWidth (Ranges.contains_eq_false (by decide +kernel) hc)
    exact Int.le_trans (Following.reserve_le_one _) (Int.ofNat_le.2 hwidth)

/-! ## Answers in context -/

/-- An answer takes back no more than was counted, and leaves the rest for what may still be taken
back. -/
def Kept (n : Int) (r? : Option (Int × Following)) : Prop := ∀ r ∈ r?, r.2.reserve ≤ n + r.1

@[simp] theorem kept_none (n : Int) : Kept n none := by simp [Kept]

@[simp] theorem kept_some {n : Int} {r : Int × Following} :
    Kept n (some r) ↔ r.2.reserve ≤ n + r.1 := by simp [Kept]

@[simp] theorem kept_ite {n : Int} {p : Prop} [Decidable p] {r s : Option (Int × Following)} :
    Kept n (if p then r else s) ↔ (p → Kept n r) ∧ (¬ p → Kept n s) := by
  split <;> simp_all

theorem kept_ligature? (c : Char) (l : Joined) (joined : Bool) :
    Kept l.reserve (ligature? c l joined) := by
  unfold ligature?
  split <;> simp [Following.reserve, Joined.reserve]

theorem kept_letterSequence? (c : Char) (l : Joined) (joined : Bool) :
    Kept l.reserve (letterSequence? c l joined) := by
  have hligature := kept_ligature? c l joined
  simp [letterSequence?, hligature, Following.reserve]

theorem kept_sequence? (c : Char) (f : Following) : Kept f.reserve (sequence? c f) := by
  cases f with
  | letter l joined => exact kept_letterSequence? c l joined
  | joinedRegionals even => cases even <;> simp [sequence?, Following.reserve]
  | joiner keycap selected =>
    cases keycap <;> cases selected <;> simp [sequence?, joinerSequence?, Following.reserve]
  | _ => simp [sequence?, tagSequence?, Following.reserve]

/-- Every character keeps the count above what may still be taken back. -/
theorem reserve_advance_le (c : Char) (f : Following) :
    (advance c f).2.reserve ≤ f.reserve + (advance c f).1 := by
  have hf := f.reserve_nonneg
  have hdrop := f.reserve_dropEmoji_le
  unfold advance
  split
  · change 0 ≤ f.reserve + if f.isJoined then 0 else 2
    split <;> omega
  split
  · change 0 ≤ f.reserve + 1
    omega
  split
  · simpa using Int.le_trans f.dropEmoji.reserve_selectEmoji_le hdrop
  split
  · simpa using Int.le_trans f.dropEmoji.reserve_selectText_le hdrop
  split
  · change 0 ≤ f.reserve + 1
    omega
  · have hdropText := f.dropEmoji.reserve_dropText_le
    have hsequence := kept_sequence? c f.dropEmoji.dropText
    cases hs : sequence? c f.dropEmoji.dropText with
    | none => exact Int.le_trans (reserve_ofChar_le c) (Int.le_add_of_nonneg_left hf)
    | some r =>
      rw [hs, kept_some] at hsequence
      simp only [Option.getD_some]
      omega

theorem measure_cons (c : Char) (cs : List Char) :
    measure (c :: cs) = ((advance c (measure cs).2).1 + (measure cs).1,
      (advance c (measure cs).2).2) := rfl

theorem reserve_measure_le (cs : List Char) : (measure cs).2.reserve ≤ (measure cs).1 := by
  induction cs with
  | nil => exact Int.le_refl 0
  | cons c cs ih =>
    have hstep := reserve_advance_le c (measure cs).2
    rw [measure_cons]
    dsimp only
    omega

theorem measure_nonneg (cs : List Char) : 0 ≤ (measure cs).1 :=
  Int.le_trans (Following.reserve_nonneg _) (reserve_measure_le cs)

/-! ## Separators -/

/-- Whether a character takes a column whatever follows it. -/
def isSeparator (c : Char) : Bool := isBasic c && !takesEmojiSelector c

theorem advance_of_isSeparator {c : Char} (hc : isSeparator c = true) (f : Following) :
    advance c f = (1, .other) := by
  obtain ⟨hbasic, hemoji⟩ : isBasic c = true ∧ takesEmojiSelector c = false := by
    simpa [isSeparator] using hc
  simp [advance, hbasic, hemoji]

theorem measure_append_cons {c : Char} (hc : isSeparator c = true) (cs ds : List Char) :
    measure (cs ++ c :: ds) = ((measure cs).1 + (1 + (measure ds).1), (measure cs).2) := by
  induction cs with
  | nil => rw [List.nil_append, measure_cons, advance_of_isSeparator hc]; simp [measure]
  | cons d cs ih =>
    rw [List.cons_append, measure_cons, measure_cons, ih]
    simp [Int.add_assoc]

theorem width_append_cons {c : Char} (hc : isSeparator c = true) (cs ds : List Char) :
    width (cs ++ c :: ds) = width cs + 1 + width ds := by
  have hcs := measure_nonneg cs
  have hds := measure_nonneg ds
  rw [width, measure_append_cons hc]
  simp only [width]
  omega

end StateMerging.Text
