/-!
# Blank characters and tokens

A blank is a character with the Unicode property `White_Space`.  A sentence is read as its tokens,
the maximal runs of characters that are not blank.
-/

namespace StateMerging.Text

def isBlank (c : Char) : Bool :=
  let n := c.toNat
  (9 ≤ n && n ≤ 13) || n == 0x20 || n == 0x85 || n == 0xA0 || n == 0x1680 ||
    (0x2000 ≤ n && n ≤ 0x200A) || n == 0x2028 || n == 0x2029 || n == 0x202F || n == 0x205F ||
    n == 0x3000

/-- The tokens of a sentence. -/
def tokens (s : String) : List String :=
  ((s.toList.splitOnP isBlank).filter (· ≠ [])).map String.ofList

def trim (s : String) : String :=
  String.ofList ((s.toList.dropWhile isBlank).reverse.dropWhile isBlank).reverse

def isBlankLine (s : String) : Bool := trim s = ""

/-- No part between separators holds a separator. -/
theorem eq_false_of_mem_splitOnP {α : Type} {p : α → Bool} {l w : List α}
    (hw : w ∈ l.splitOnP p) {x : α} (hx : x ∈ w) : p x = false := by
  induction l generalizing w with
  | nil =>
    simp only [List.splitOnP_nil, List.mem_singleton] at hw
    simp [hw] at hx
  | cons y l ih =>
    rw [List.splitOnP_cons_eq_if_modifyHead] at hw
    by_cases hy : p y = true
    · rw [if_pos hy] at hw
      rcases List.mem_cons.1 hw with rfl | hw
      · simp at hx
      · exact ih hw hx
    · rw [if_neg hy] at hw
      cases hs : l.splitOnP p with
      | nil => simp [hs] at hw
      | cons v vs =>
        simp only [hs, List.modifyHead_cons, List.mem_cons] at hw
        rcases hw with rfl | hw
        · rcases List.mem_cons.1 hx with rfl | hx
          · simpa using hy
          · exact ih (by simp [hs]) hx
        · exact ih (by simp [hs, hw]) hx

theorem ne_empty_of_mem_tokens {s t : String} (h : t ∈ tokens s) : t ≠ "" := by
  simp only [tokens, List.mem_map, List.mem_filter, decide_eq_true_eq] at h
  obtain ⟨w, ⟨-, hw⟩, rfl⟩ := h
  intro h
  have := congrArg String.toList h
  simp at this
  exact hw this

theorem not_isBlank_of_mem_tokens {s t : String} (h : t ∈ tokens s) {c : Char}
    (hc : c ∈ t.toList) : isBlank c = false := by
  simp only [tokens, List.mem_map, List.mem_filter, decide_eq_true_eq] at h
  obtain ⟨w, ⟨hw, -⟩, rfl⟩ := h
  rw [String.toList_ofList] at hc
  exact eq_false_of_mem_splitOnP hw hc

end StateMerging.Text
