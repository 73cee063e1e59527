import StateMerging.Proofs.Chains

/-!
# Shortening chains is unobservable

Resolving an element walks along its chain twice: once to find the end, and once more to repoint
every element it passes to that end, in the record that it reads.  An element so repointed skips
the rest of its chain, which goes unnoticed as long as no element is replaced twice.

* `Compresses y r x s`: the second walk, from `x` in the record `r`, ends and leaves the record `s`.
* `Acyclic.resolves`: both walks end where every chain ends, with what `Redirections.resolve` says.
* `Alike r s`: in both records every chain ends, and chains that start alike end alike.  Recording
  the same replacement in both keeps this (`Alike.redirect`), and so does resolving in one of them
  (`Alike.resolve`).
* `compression_is_unobservable`: in a sequence of calls that replaces no element twice and closes no
  cycle, every resolution ends with the end of the chain in the record that was never shortened, and
  leaving out resolutions changes no other answer.
-/

namespace StateMerging.Redirections

variable {α : Type} [DecidableEq α] {r s t : Redirections α} {m n : Nat} {x y z w : α}
  {xs l : List α}

/-! ## The two walks -/

/-- The chain of replacements that starts in `x` ends in `y`. -/
def EndsIn (r : Redirections α) (x y : α) : Prop := ∃ n, r.Ends n x y

/-- The walk that repoints the elements of a chain to `y`, one after the other. -/
inductive Compresses (y : α) : Redirections α → α → Redirections α → Prop
  /-- The walk stops at an element without a replacement. -/
  | stop {r : Redirections α} {x : α} (h : r.next? x = none) : Compresses y r x r
  /-- The walk stops after an element that was replaced by `y`. -/
  | last {r : Redirections α} {x : α} (h : r.next? x = some y) :
    Compresses y r x (r.shorten [x] y)
  /-- The walk goes on from the old replacement. -/
  | pass {r s : Redirections α} {x z : α} (h : r.next? x = some z) (hz : z ≠ y)
    (rest : Compresses y (r.shorten [x] y) z s) : Compresses y r x s

/-- The first walk from `x` ends in `y`, and the second one leaves the record `s`. -/
structure Resolves (r : Redirections α) (x y : α) (s : Redirections α) : Prop where
  ends : r.EndsIn x y
  compresses : Compresses y r x s

theorem Compresses.unique (h : Compresses y r x s) (k : Compresses y r x t) : s = t := by
  induction h with
  | stop h =>
    cases k with
    | stop => rfl
    | last k => simp [h] at k
    | pass k => simp [h] at k
  | last h =>
    cases k with
    | stop k => simp [h] at k
    | last => rfl
    | pass k hz => exact absurd (Option.some.inj (k.symm.trans h)) hz
  | pass h hz _ ih =>
    cases k with
    | stop k => simp [h] at k
    | last k => exact absurd (Option.some.inj (h.symm.trans k)) hz
    | pass k _ rest =>
      obtain rfl := Option.some.inj (h.symm.trans k)
      exact ih rest

theorem Resolves.unique (h : r.Resolves x y s) (k : r.Resolves x z t) : y = z ∧ s = t := by
  obtain ⟨n, hn⟩ := h.ends
  obtain ⟨m, hm⟩ := k.ends
  obtain ⟨-, rfl⟩ := hn.unique hm
  exact ⟨rfl, h.compresses.unique k.compresses⟩

theorem Acyclic.endsIn_iff (h : r.Acyclic) : r.EndsIn x y ↔ r.root x = y := by
  constructor
  · intro k
    obtain ⟨n, hn⟩ := k
    exact hn.root_eq
  · rintro rfl
    exact h.ends_root x

theorem shorten_nil (r : Redirections α) (y : α) : r.shorten [] y = r := by
  simp [shorten]

theorem shorten_shorten (r : Redirections α) (l xs : List α) (y : α) :
    (r.shorten l y).shorten xs y = r.shorten (l ++ xs) y := by
  simp only [shorten, List.map_map, Redirections.mk.injEq]
  refine List.map_congr_left fun p _ => ?_
  by_cases hl : p.1 ∈ l <;> by_cases hx : p.1 ∈ xs <;> simp [hl, hx]

theorem trail_of_next?_eq_none (h : r.next? x = none) (m : Nat) : r.trail m x = [] := by
  cases m with
  | zero => rfl
  | succ m => rw [trail, h]

/-- The second walk passes the elements of the chain.  It does not come back to an element of `l`,
which it has passed before: these are farther from the end. -/
theorem Ends.compresses (k : r.Ends n x y) (hm : n ≤ m) (hl : ∀ c ∈ l, ∃ j, n < j ∧ r.Ends j c y) :
    Compresses y (r.shorten l y) x (r.shorten (l ++ r.trail m x) y) := by
  induction k generalizing m l with
  | @stop y h =>
    rw [trail_of_next?_eq_none h, List.append_nil]
    exact .stop (by rw [next?_shorten, h, Option.map_none])
  | @link n x z y h rest ih =>
    obtain ⟨m, rfl⟩ : ∃ k, m = k + 1 := ⟨m - 1, by omega⟩
    have hx : x ∉ l := by
      intro hmem
      obtain ⟨j, hlt, hj⟩ := hl x hmem
      exact Nat.ne_of_lt hlt ((Ends.link h rest).unique hj).1
    have hnext : (r.shorten l y).next? x = some z := by
      rw [next?_shorten, h, Option.map_some, if_neg hx]
    have htrail : l ++ r.trail (m + 1) x = (l ++ [x]) ++ r.trail m z := by simp [trail, h]
    have hpassed : ∀ c ∈ l ++ [x], ∃ j, n < j ∧ r.Ends j c y := by
      intro c hc
      rcases List.mem_append.1 hc with hc | hc
      · obtain ⟨j, hlt, hj⟩ := hl c hc
        exact ⟨j, by omega, hj⟩
      · obtain rfl := List.mem_singleton.1 hc
        exact ⟨n + 1, Nat.lt_succ_self n, .link h rest⟩
    rw [htrail]
    by_cases hzy : z = y
    · subst hzy
      rw [trail_of_next?_eq_none rest.next?_eq_none, List.append_nil, ← shorten_shorten]
      exact .last hnext
    · refine .pass hnext hzy ?_
      rw [shorten_shorten]
      exact ih (by omega) hpassed

/-- Both walks end, with the answer and the record of `resolve`. -/
theorem Acyclic.resolves (h : r.Acyclic) (x : α) :
    r.Resolves x (r.resolve x).1 (r.resolve x).2 := by
  obtain ⟨n, hn⟩ := h.ends_root x
  have hwalk := hn.compresses (l := []) hn.le_length (by simp)
  rw [shorten_nil, List.nil_append] at hwalk
  exact ⟨⟨n, hn⟩, hwalk⟩

/-! ## Shortened chains -/

/-- A chain has the same end after elements were repointed to their end. -/
theorem Ends.shorten (k : r.Ends n z w) (hy : r.next? y = none) (hxs : ∀ c ∈ xs, r.EndsIn c y) :
    (r.shorten xs y).EndsIn z w := by
  induction k with
  | stop h => exact ⟨0, .stop (by rw [next?_shorten, h, Option.map_none])⟩
  | @link n z a w h rest ih =>
    by_cases hz : z ∈ xs
    · obtain ⟨j, hj⟩ := hxs z hz
      obtain ⟨-, rfl⟩ := (Ends.link h rest).unique hj
      exact ⟨1, .link (by rw [next?_shorten, h, Option.map_some, if_pos hz])
        (.stop (by rw [next?_shorten, hy, Option.map_none]))⟩
    · obtain ⟨j, hj⟩ := ih
      exact ⟨j + 1, .link (by rw [next?_shorten, h, Option.map_some, if_neg hz]) hj⟩

theorem Acyclic.endsIn_of_mem_trail (h : r.Acyclic) (hz : z ∈ r.trail m x) :
    r.EndsIn z (r.root x) := by
  induction m generalizing x with
  | zero => simp [trail] at hz
  | succ m ih =>
    cases hx : r.next? x with
    | none => simp [trail_of_next?_eq_none hx] at hz
    | some a =>
      rw [trail, hx] at hz
      rcases List.mem_cons.1 hz with rfl | hz
      · exact h.ends_root z
      · obtain ⟨k, hk⟩ := h.ends_root a
        exact (Ends.link hx hk).root_eq ▸ ih hz

/-- Every chain ends in both records, and chains that start alike end alike. -/
structure Alike (r s : Redirections α) : Prop where
  left : r.Acyclic
  right : s.Acyclic
  root_eq : ∀ x, r.root x = s.root x

theorem Alike.of_ends (h : s.Acyclic) (hends : ∀ n x y, s.Ends n x y → r.EndsIn x y) :
    Alike r s where
  left x := by
    obtain ⟨n, y, hn⟩ := h x
    obtain ⟨k, hk⟩ := hends n x y hn
    exact ⟨k, y, hk⟩
  right := h
  root_eq x := by
    obtain ⟨n, hn⟩ := h.ends_root x
    obtain ⟨k, hk⟩ := hends n x _ hn
    exact hk.root_eq

theorem Alike.refl (h : r.Acyclic) : Alike r r := ⟨h, h, fun _ => rfl⟩

theorem Alike.trans (k : Alike r s) (k' : Alike s t) : Alike r t :=
  ⟨k.left, k'.right, fun x => (k.root_eq x).trans (k'.root_eq x)⟩

/-- Resolving in one record only. -/
theorem Alike.resolve (k : Alike r s) (x : α) : Alike (r.resolve x).2 s :=
  (Alike.of_ends k.left fun _ _ _ hn =>
    hn.shorten (k.left.next?_root x) fun _ => k.left.endsIn_of_mem_trail).trans k

theorem Alike.next?_eq_none (k : Alike r s) (hx : s.next? x = none) : r.next? x = none := by
  have hroot : r.root x = x := (k.root_eq x).trans (root_of_next?_eq_none hx)
  exact hroot ▸ k.left.next?_root x

/-- Recording the same replacement in both records. -/
theorem Alike.redirect (k : Alike r s) (hx : s.next? x = none) (hy : ¬ s.EndsIn y x) :
    Alike (r.redirect x y) (s.redirect x y) := by
  have hy : s.root y ≠ x := fun h => hy (k.right.endsIn_iff.2 h)
  have hy' : r.root y ≠ x := k.root_eq y ▸ hy
  have hx' : r.next? x = none := k.next?_eq_none hx
  refine ⟨k.left.redirect hx' hy', k.right.redirect hx hy, fun z => ?_⟩
  rw [k.left.root_redirect hx' hy', k.right.root_redirect hx hy, k.root_eq, k.root_eq]

/-! ## Sequences of replacements -/

/-- Records replacements one after the other. -/
def record (r : Redirections α) (l : List (α × α)) : Redirections α :=
  l.foldl (fun r p => r.redirect p.1 p.2) r

/-- Each replacement of an element by another one is made for an element that was not replaced
before, by one whose chain does not end in it. -/
def Sound (r : Redirections α) : List (α × α) → Prop
  | [] => True
  | (x, y) :: l =>
    (x ≠ y → r.next? x = none ∧ ¬ r.EndsIn y x) ∧ (r.redirect x y).Sound l

theorem sound_append {l l' : List (α × α)} :
    r.Sound (l ++ l') ↔ r.Sound l ∧ (r.record l).Sound l' := by
  induction l generalizing r with
  | nil => simp [Sound, record]
  | cons p l ih =>
    obtain ⟨x, y⟩ := p
    rw [List.cons_append, Sound, Sound, ih, and_assoc]
    rfl

theorem record_append (r : Redirections α) (l l' : List (α × α)) :
    r.record (l ++ l') = (r.record l).record l' := List.foldl_append

theorem Alike.record {l : List (α × α)} (k : Alike r s) (h : s.Sound l) :
    Alike (r.record l) (s.record l) := by
  induction l generalizing r s with
  | nil => exact k
  | cons p l ih =>
    obtain ⟨x, y⟩ := p
    obtain ⟨hxy, h⟩ := h
    refine ih ?_ h
    by_cases heq : x = y
    · subst heq
      simpa using k
    · exact k.redirect (hxy heq).1 (hxy heq).2

theorem redirectAll_eq_record (r : Redirections α) (xs : List α) (y : α) :
    r.redirectAll xs y = r.record (xs.map (·, y)) := by
  rw [record, List.foldl_map]
  rfl

/-! ## Calls -/

/-- What can be done with a record. -/
inductive Call (α : Type)
  /-- An element is replaced by another one. -/
  | redirect (x y : α)
  /-- Several elements are replaced by one. -/
  | redirectAll (xs : List α) (y : α)
  /-- An element is resolved. -/
  | resolve (x : α)
  /-- Several elements are resolved one after the other. -/
  | resolveAll (xs : List α)

/-- What a call gives back. -/
inductive Answer (α : Type) [Ord α]
  /-- Nothing. -/
  | done
  /-- The end of a chain. -/
  | element (y : α)
  /-- The ends of several chains. -/
  | elements (ys : SortedSet α)
  deriving DecidableEq

namespace Call

/-- The replacements that a call asks for, each of an element by another one. -/
def redirects : Call α → List (α × α)
  | redirect x y => [(x, y)]
  | redirectAll xs y => xs.map (·, y)
  | resolve _ => []
  | resolveAll _ => []

/-- Whether the call resolves elements. -/
def isQuery : Call α → Bool
  | redirect .. | redirectAll .. => false
  | resolve _ | resolveAll _ => true

omit [DecidableEq α] in
theorem redirects_of_isQuery {c : Call α} (h : c.isQuery = true) : c.redirects = [] := by
  cases c with
  | redirect | redirectAll => cases h
  | resolve | resolveAll => rfl

/-- The answer is the one that the record gives: a resolved element stands for the end of its
chain. -/
def Answered [Ord α] (c : Call α) (s : Redirections α) (a : Answer α) : Prop :=
  match c, a with
  | redirect .., .done => True
  | redirectAll .., .done => True
  | resolve x, .element y => s.EndsIn x y
  | resolveAll xs, .elements ys => ∀ y, y ∈ ys ↔ ∃ x ∈ xs, s.EndsIn x y
  | _, _ => False

end Call

variable [Ord α] [Std.TransOrd α] [Std.LawfulEqOrd α]

/-- The answer of a call, and the record afterwards. -/
def perform (r : Redirections α) : Call α → Answer α × Redirections α
  | .redirect x y => (.done, r.redirect x y)
  | .redirectAll xs y => (.done, r.redirectAll xs y)
  | .resolve x => (.element (r.resolve x).1, (r.resolve x).2)
  | .resolveAll xs => (.elements (r.resolveAll xs).1, (r.resolveAll xs).2)

/-- The answers of calls that are made one after the other. -/
def answers (r : Redirections α) : List (Call α) → List (Answer α)
  | [] => []
  | c :: calls => (r.perform c).1 :: (r.perform c).2.answers calls

/-- Several elements are resolved in two walks each. -/
inductive ResolvesAll : Redirections α → List α → SortedSet α → Redirections α → Prop
  | nil (r : Redirections α) : ResolvesAll r [] ∅ r
  | cons {r s t : Redirections α} {x y : α} {xs : List α} {ys : SortedSet α}
    (first : r.Resolves x y s) (rest : ResolvesAll s xs ys t) :
    ResolvesAll r (x :: xs) (ys.insert y) t

/-- A call is carried out; its resolutions are walks that end. -/
inductive Runs : Redirections α → Call α → Answer α → Redirections α → Prop
  | redirect (r : Redirections α) (x y : α) : Runs r (.redirect x y) .done (r.redirect x y)
  | redirectAll (r : Redirections α) (xs : List α) (y : α) :
    Runs r (.redirectAll xs y) .done (r.redirectAll xs y)
  | resolve {r s : Redirections α} {x y : α} (h : r.Resolves x y s) :
    Runs r (.resolve x) (.element y) s
  | resolveAll {r s : Redirections α} {xs : List α} {ys : SortedSet α} (h : ResolvesAll r xs ys s) :
    Runs r (.resolveAll xs) (.elements ys) s

/-- Calls are carried out one after the other. -/
inductive RunsAll : Redirections α → List (Call α) → List (Answer α) → Prop
  | nil (r : Redirections α) : RunsAll r [] []
  | cons {r s : Redirections α} {c : Call α} {a : Answer α} {calls : List (Call α)}
    {as : List (Answer α)} (first : Runs r c a s) (rest : RunsAll s calls as) :
    RunsAll r (c :: calls) (a :: as)

theorem ResolvesAll.unique {ys zs : SortedSet α} (h : r.ResolvesAll xs ys s)
    (k : r.ResolvesAll xs zs t) : ys = zs ∧ s = t := by
  induction h generalizing zs with
  | nil => cases k; exact ⟨rfl, rfl⟩
  | cons first _ ih =>
    cases k with
    | cons first' rest =>
      obtain ⟨rfl, rfl⟩ := first.unique first'
      obtain ⟨rfl, rfl⟩ := ih rest
      exact ⟨rfl, rfl⟩

theorem Runs.unique {c : Call α} {a b : Answer α} (h : Runs r c a s) (k : Runs r c b t) :
    a = b ∧ s = t := by
  cases h with
  | redirect | redirectAll => cases k; exact ⟨rfl, rfl⟩
  | resolve h =>
    cases k with
    | resolve k =>
      obtain ⟨rfl, rfl⟩ := h.unique k
      exact ⟨rfl, rfl⟩
  | resolveAll h =>
    cases k with
    | resolveAll k =>
      obtain ⟨rfl, rfl⟩ := h.unique k
      exact ⟨rfl, rfl⟩

theorem RunsAll.unique {calls : List (Call α)} {as bs : List (Answer α)} (h : RunsAll r calls as)
    (k : RunsAll r calls bs) : as = bs := by
  induction h generalizing bs with
  | nil => cases k; rfl
  | cons first _ ih =>
    cases k with
    | cons first' rest =>
      obtain ⟨rfl, rfl⟩ := first.unique first'
      rw [ih rest]

/-! ## One call -/

theorem Acyclic.resolvesAll (h : r.Acyclic) (xs : List α) :
    r.ResolvesAll xs (r.resolveAll xs).1 (r.resolveAll xs).2 := by
  induction xs generalizing r with
  | nil => exact .nil r
  | cons x xs ih =>
    have hnext : (r.resolve x).2.Acyclic := ((Alike.refl h).resolve x).left
    exact .cons (h.resolves x) (ih hnext)

theorem Alike.resolveAll (k : Alike r s) (xs : List α) : Alike (r.resolveAll xs).2 s := by
  induction xs generalizing r with
  | nil => exact k
  | cons x xs ih => exact ih (k.resolve x)

theorem Alike.fst_resolveAll (k : Alike r s) (xs : List α) :
    (r.resolveAll xs).1 = SortedSet.ofList (xs.map s.root) := by
  induction xs generalizing r with
  | nil => rfl
  | cons x xs ih =>
    change ((r.resolve x).2.resolveAll xs).1.insert (r.root x) = _
    rw [ih (k.resolve x), k.root_eq]
    rfl

theorem Acyclic.runs (h : r.Acyclic) (c : Call α) : Runs r c (r.perform c).1 (r.perform c).2 := by
  cases c with
  | redirect x y => exact .redirect r x y
  | redirectAll xs y => exact .redirectAll r xs y
  | resolve x => exact .resolve (h.resolves x)
  | resolveAll xs => exact .resolveAll (h.resolvesAll xs)

/-- A call keeps two records alike, if the second one records its replacements only. -/
theorem Alike.perform {c : Call α} (k : Alike r s) (h : s.Sound c.redirects) :
    Alike (r.perform c).2 (s.record c.redirects) := by
  cases c with
  | redirect x y => exact k.record h
  | redirectAll xs y =>
    have hrun := k.record h
    rw [Call.redirects, ← redirectAll_eq_record r] at hrun
    exact hrun
  | resolve x => exact k.resolve x
  | resolveAll xs => exact k.resolveAll xs

/-- A call has the answer that the second record gives. -/
theorem Alike.answered (k : Alike r s) (c : Call α) : c.Answered s (r.perform c).1 := by
  cases c with
  | redirect | redirectAll => trivial
  | resolve x => exact k.right.endsIn_iff.2 (k.root_eq x).symm
  | resolveAll xs =>
    intro y
    rw [k.fst_resolveAll, SortedSet.mem_ofList, List.mem_map]
    simp only [k.right.endsIn_iff]

theorem Alike.fst_perform (k : Alike r s) (c : Call α) : (r.perform c).1 = (s.perform c).1 := by
  have hself : Alike s s := .refl k.right
  cases c with
  | redirect | redirectAll => rfl
  | resolve x => exact congrArg Answer.element (k.root_eq x)
  | resolveAll xs =>
    exact congrArg Answer.elements ((k.fst_resolveAll xs).trans (hself.fst_resolveAll xs).symm)

/-! ## Sequences of calls -/

section

variable {calls earlier later : List (Call α)} {c : Call α} {marks : List Bool}

theorem Alike.runsAll (k : Alike r s) (h : s.Sound (calls.flatMap Call.redirects)) :
    RunsAll r calls (r.answers calls) := by
  induction calls generalizing r s with
  | nil => exact .nil r
  | cons c calls ih =>
    rw [List.flatMap_cons, sound_append] at h
    exact .cons (k.left.runs c) (ih (k.perform h.1) h.2)

theorem Alike.exists_answered (k : Alike r s)
    (h : s.Sound ((earlier ++ c :: later).flatMap Call.redirects)) :
    ∃ a, (r.answers (earlier ++ c :: later))[earlier.length]? = some a ∧
      c.Answered (s.record (earlier.flatMap Call.redirects)) a := by
  induction earlier generalizing r s with
  | nil => exact ⟨_, rfl, k.answered c⟩
  | cons d earlier ih =>
    rw [List.cons_append, List.flatMap_cons, sound_append] at h
    rw [List.flatMap_cons, record_append]
    exact ih (k.perform h.1) h.2

/-- The items of a list whose marks are set. -/
def retained {β : Type} (marks : List Bool) (l : List β) : List β :=
  ((l.zip marks).filter (·.2)).map (·.1)

/-- Two records that are alike a third one go through the same calls, the one without those that are
not marked; these resolve elements only, and so keep the first record alike the third. -/
theorem Alike.answers_retained {r' : Redirections α} (k : Alike r s) (k' : Alike r' s)
    (h : s.Sound (calls.flatMap Call.redirects)) (hlength : marks.length = calls.length)
    (hquery : ∀ p ∈ calls.zip marks, p.2 = false → p.1.isQuery = true) :
    r'.answers (retained marks calls) = retained marks (r.answers calls) := by
  induction calls generalizing r r' s marks with
  | nil => rfl
  | cons c calls ih =>
    obtain ⟨b, marks, rfl⟩ := List.exists_cons_of_length_eq_add_one hlength
    rw [List.flatMap_cons, sound_append] at h
    have hlength' : marks.length = calls.length := by simpa using hlength
    have hrest : ∀ p ∈ calls.zip marks, p.2 = false → p.1.isQuery = true := fun p hp =>
      hquery p (by simp [hp])
    cases b with
    | true =>
      have hanswer : (r'.perform c).1 = (r.perform c).1 :=
        (k'.fst_perform c).trans (k.fst_perform c).symm
      exact congrArg₂ List.cons hanswer (ih (k.perform h.1) (k'.perform h.1) h.2 hlength' hrest)
    | false =>
      have hkeep : s.record c.redirects = s := by
        rw [Call.redirects_of_isQuery (hquery (c, false) (by simp) rfl)]
        rfl
      have hnext := k.perform h.1
      rw [hkeep] at hnext h
      exact ih hnext k' h.2 hlength' hrest

/-- Let calls be made one after the other that replace no element twice and close no cycle.  Then
every resolution ends, and the answers are determined.  The answer of each call is the one that the
replacements recorded before give: an element is resolved to the end of its chain among them, and
several elements to the set of these ends.  Leaving out calls that resolve elements changes no
answer of the other calls. -/
theorem compression_is_unobservable
    (h : Sound (∅ : Redirections α) (calls.flatMap Call.redirects)) :
    (∀ as, RunsAll ∅ calls as ↔ as = answers ∅ calls) ∧
      (∀ earlier c later, calls = earlier ++ c :: later →
        ∃ a, (answers ∅ calls)[earlier.length]? = some a ∧
          c.Answered (record ∅ (earlier.flatMap Call.redirects)) a) ∧
      ∀ marks : List Bool, marks.length = calls.length →
        (∀ p ∈ calls.zip marks, p.2 = false → p.1.isQuery = true) →
        answers ∅ (retained marks calls) = retained marks (answers ∅ calls) := by
  have k : Alike (∅ : Redirections α) ∅ := .refl acyclic_empty
  refine ⟨fun as => ⟨fun hrun => hrun.unique (k.runsAll h), fun has => has ▸ k.runsAll h⟩,
    fun earlier c later hcalls => ?_, fun marks hlength hquery => ?_⟩
  · subst hcalls
    exact k.exists_answered h
  · exact k.answers_retained k h hlength hquery

/-- After the first resolution `1` skips `2`, and the end of its chain is replaced only then. -/
def detour : List (Call Nat) :=
  [.redirect 1 2, .redirect 2 3, .resolve 1, .redirectAll [3, 5] 4, .resolve 1,
    .resolveAll [2, 5, 6]]

theorem detour_is_unobservable :
    RunsAll ∅ detour [.done, .done, .element 3, .done, .element 4, .elements (.ofList [4, 6])] ∧
      (record ∅ [(1, 2), (2, 3), (3, 4), (5, 4)]).EndsIn 1 4 ∧
      answers ∅ (retained [true, true, false, true, true, true] detour) =
        [.done, .done, .done, .element 4, .elements (.ofList [4, 6])] := by
  have open_end {l : List (Nat × Nat)} {x y : Nat} (hroot : (record ∅ l).root y ≠ x) :
      ¬ (record ∅ l).EndsIn y x := fun ⟨_, h⟩ => hroot h.root_eq
  have h : Sound (∅ : Redirections Nat) (detour.flatMap Call.redirects) :=
    ⟨fun _ => ⟨rfl, open_end (l := []) (by decide)⟩,
      fun _ => ⟨rfl, open_end (l := [(1, 2)]) (by decide)⟩,
      fun _ => ⟨rfl, open_end (l := [(1, 2), (2, 3)]) (by decide)⟩,
      fun _ => ⟨rfl, open_end (l := [(1, 2), (2, 3), (3, 4)]) (by decide)⟩, trivial⟩
  have hanswers : answers ∅ detour =
      [.done, .done, .element 3, .done, .element 4, .elements (.ofList [4, 6])] := by
    decide +kernel
  obtain ⟨hrun, hanswered, hretained⟩ := compression_is_unobservable h
  rw [hanswers] at hrun hretained
  obtain ⟨a, ha, hends⟩ := hanswered (detour.take 4) (.resolve 1) [.resolveAll [2, 5, 6]] rfl
  obtain rfl : a = .element 4 := by
    rw [hanswers] at ha
    exact (Option.some.inj ha).symm
  exact ⟨(hrun _).2 rfl, hends, hretained _ rfl (by decide)⟩

/-- Without the precondition the answers differ: `2` is replaced a second time, and only the record
that was not shortened follows. -/
example :
    answers ∅ [.redirect 1 2, .redirect 2 3, .resolve 1, .redirect 2 4, .resolve 1] =
        [.done, .done, .element 3, .done, .element 3] ∧
      answers ∅ [.redirect 1 2, .redirect 2 3, .redirect 2 4, .resolve 1] =
        [.done, .done, .done, .element 4] := by
  decide +kernel

end

end StateMerging.Redirections
