import StateMerging.SortedSet

/-!
# Redirections

`Redirections α` records which element was replaced by which.  Replacements chain: when `x` was
replaced by `y` and `y` later by `z`, then `x` stands for `z`.

* `Redirections.root` is the element at the end of a chain, and `root_of_next?_eq_none` says that an
  element without a replacement stands for itself.
* `Redirections.resolve` gives the same element and shortens the chain it walked, so that each
  element on it is recorded as replaced by the end of the chain directly.
* `next?_redirect` says what one more replacement does to the record.
-/

namespace StateMerging

/-- A record of replacements, at most one for each element. -/
structure Redirections (α : Type) where
  pairs : List (α × α)
  deriving DecidableEq

namespace Redirections

variable {α : Type}

instance : EmptyCollection (Redirections α) := ⟨⟨[]⟩⟩

instance : Inhabited (Redirections α) := ⟨∅⟩

variable [DecidableEq α]

/-- The recorded replacement of an element. -/
def next? (r : Redirections α) (x : α) : Option α := r.pairs.lookup x

@[simp] theorem next?_empty (x : α) : (∅ : Redirections α).next? x = none := rfl

/-! ## Recording -/

/-- Records that `x` was replaced by `y`, in place of an earlier replacement of `x`.  An element
does not replace itself. -/
def redirect (r : Redirections α) (x y : α) : Redirections α :=
  if x = y then r else ⟨(x, y) :: r.pairs.filter (·.1 ≠ x)⟩

/-- Records that each element of a list was replaced by `y`. -/
def redirectAll (r : Redirections α) (xs : List α) (y : α) : Redirections α :=
  xs.foldl (fun r x => r.redirect x y) r

theorem lookup_filter_ne {l : List (α × α)} {x z : α} (h : z ≠ x) :
    (l.filter (·.1 ≠ x)).lookup z = l.lookup z := by
  induction l with
  | nil => rfl
  | cons p l ih =>
    obtain ⟨a, b⟩ := p
    by_cases ha : a = x
    · subst ha
      have : (z == a) = false := by simp [h]
      simpa [List.lookup_cons, this] using ih
    · rw [List.filter_cons_of_pos (by simpa using ha)]
      simp only [List.lookup_cons, ih]

theorem next?_redirect (r : Redirections α) {x y : α} (h : x ≠ y) (z : α) :
    (r.redirect x y).next? z = if z = x then some y else r.next? z := by
  by_cases hz : z = x
  · subst hz
    simp [redirect, next?, h]
  · have : (z == x) = false := by simp [hz]
    simp only [redirect, next?, h, if_false, hz, List.lookup_cons, this]
    exact lookup_filter_ne hz

@[simp] theorem redirect_self (r : Redirections α) (x : α) : r.redirect x x = r := by
  simp [redirect]

/-! ## Chains -/

/-- The end of the first `n` links of the chain that starts in `x`. -/
def follow (r : Redirections α) : Nat → α → α
  | 0, x => x
  | n + 1, x =>
    match r.next? x with
    | none => x
    | some y => r.follow n y

/-- The element at the end of the chain that starts in `x`.  A chain that does not return to itself
has at most as many links as there are records. -/
def root (r : Redirections α) (x : α) : α := r.follow r.pairs.length x

/-- The replaced elements among the first `n` links of the chain that starts in `x`. -/
def trail (r : Redirections α) : Nat → α → List α
  | 0, _ => []
  | n + 1, x =>
    match r.next? x with
    | none => []
    | some y => x :: r.trail n y

theorem follow_of_next?_eq_none {r : Redirections α} {x : α} (h : r.next? x = none) (n : Nat) :
    r.follow n x = x := by
  cases n <;> simp [follow, h]

theorem root_of_next?_eq_none {r : Redirections α} {x : α} (h : r.next? x = none) :
    r.root x = x := follow_of_next?_eq_none h _

@[simp] theorem root_empty (x : α) : (∅ : Redirections α).root x = x := rfl

/-! ## Resolving -/

/-- The record with every element of `xs` that has a replacement replaced by `y` instead. -/
def shorten (r : Redirections α) (xs : List α) (y : α) : Redirections α :=
  ⟨r.pairs.map fun p => if p.1 ∈ xs then (p.1, y) else p⟩

/-- The element at the end of the chain of `x`, and the record with that chain shortened. -/
def resolve (r : Redirections α) (x : α) : α × Redirections α :=
  (r.root x, r.shorten (r.trail r.pairs.length x) (r.root x))

/-- The distinct ends of the chains of several elements, resolved one after the other. -/
def resolveAll [Ord α] [Std.TransOrd α] [Std.LawfulEqOrd α] (r : Redirections α) :
    List α → SortedSet α × Redirections α
  | [] => (∅, r)
  | x :: xs =>
    let (y, r) := r.resolve x
    let (ys, r) := r.resolveAll xs
    (ys.insert y, r)

theorem next?_shorten (r : Redirections α) (xs : List α) (y x : α) :
    (r.shorten xs y).next? x = (r.next? x).map fun z => if x ∈ xs then y else z := by
  obtain ⟨l⟩ := r
  simp only [shorten, next?]
  induction l with
  | nil => rfl
  | cons p l ih =>
    obtain ⟨a, b⟩ := p
    by_cases hx : x = a
    · subst hx
      by_cases hm : x ∈ xs <;> simp [hm]
    · have hx' : (x == a) = false := by simp [hx]
      by_cases hm : a ∈ xs <;> simp [List.lookup_cons, hm, hx', ih]

end Redirections

end StateMerging
