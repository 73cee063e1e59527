import StateMerging.Proofs.Lineage

/-!
# Names record where a node comes from

A fresh node is named by the next number, and a merge joins the names of the members by commas.  So
the *parts* of a name, which the commas separate, are the numbers of the nodes that have been merged
into the node.

* `Numbered a`: the parts of all names are the numbers that were issued, each once.  Each elementary
  change keeps this, and a merge moves the parts along its map (`carries_merged_iff`).
* `Became actions k q`: on this run the node that was created under number `k` has become `q`.
* `names_record_provenance`: on every run the parts of all names are the issued numbers, each once,
  and a number is in the name of the node that the node created under it has become.
-/

namespace StateMerging

/-! ## The parts of a name -/

/-- What the commas of a name separate. -/
def parts (name : String) : List String := (name.toList.splitOn ',').map String.ofList

theorem isDigit_of_mem_toString {c : Char} {k : Nat} (hc : c ∈ (toString k).toList) :
    c.isDigit = true := by
  rw [Nat.toString_eq_repr, Nat.repr_eq_ofList_toDigits, String.toList_ofList] at hc
  exact Nat.isDigit_of_mem_toDigits (by decide) (by decide) hc

theorem parts_toString (k : Nat) : parts (toString k) = [toString k] := by
  have hcomma : ',' ∉ (toString k).toList := by
    intro h
    have hdigit := isDigit_of_mem_toString h
    simp at hdigit
  rw [parts, List.splitOn_eq_singleton hcomma, List.map_singleton, String.ofList_toList]

theorem parts_append_comma (s t : String) : parts (s ++ "," ++ t) = parts s ++ parts t := by
  have hlist : (s ++ "," ++ t).toList = s.toList ++ ',' :: t.toList := by simp
  rw [parts, hlist, List.splitOn_append_cons_self, List.map_append, parts, parts]

theorem parts_intercalate {names : List String} (h : names ≠ []) :
    parts (",".intercalate names) = names.flatMap parts := by
  induction names with
  | nil => exact absurd rfl h
  | cons s names ih =>
    cases names with
    | nil => rw [String.intercalate_singleton, List.flatMap_singleton]
    | cons t names =>
      rw [String.intercalate_cons_cons, parts_append_comma, ih (List.cons_ne_nil t names)]
      rfl

theorem mem_or_mem_of_mem_intercalate {α : Type} {x : α} {sep : List α} {ls : List (List α)}
    (hx : x ∈ sep.intercalate ls) : x ∈ sep ∨ ∃ l ∈ ls, x ∈ l := by
  induction ls with
  | nil => cases hx
  | cons l ls ih =>
    cases ls with
    | nil => exact Or.inr ⟨l, List.mem_cons_self, by rwa [List.intercalate_singleton] at hx⟩
    | cons m ls =>
      rw [List.intercalate_cons_cons, List.append_assoc, List.mem_append, List.mem_append] at hx
      rcases hx with hx | hx | hx
      · exact Or.inr ⟨l, List.mem_cons_self, hx⟩
      · exact Or.inl hx
      · exact (ih hx).imp_right fun ⟨w, hw, hmem⟩ => ⟨w, List.mem_cons_of_mem l hw, hmem⟩

/-- A character of a name is a comma or belongs to a part. -/
theorem eq_comma_or_mem_part {c : Char} {name : String} (hc : c ∈ name.toList) :
    c = ',' ∨ ∃ s ∈ parts name, c ∈ s.toList := by
  have hjoin : [','].intercalate (name.toList.splitOn ',') = name.toList :=
    List.intercalate_splitOn ','
  rw [← hjoin] at hc
  rcases mem_or_mem_of_mem_intercalate hc with hc | ⟨w, hw, hmem⟩
  · exact Or.inl (List.mem_singleton.1 hc)
  · exact Or.inr ⟨String.ofList w, List.mem_map_of_mem hw, by rwa [String.toList_ofList]⟩

theorem toString_inj {j k : Nat} : toString j = toString k ↔ j = k := by
  refine ⟨fun h => ?_, congrArg toString⟩
  rw [Nat.toString_eq_repr, Nat.toString_eq_repr, Nat.repr_eq_ofList_toDigits,
    Nat.repr_eq_ofList_toDigits, String.ofList_inj] at h
  rw [← Nat.ofDigitChars_ten_toDigits (n := j), h, Nat.ofDigitChars_ten_toDigits]

namespace Automaton

variable {a b : Automaton} {h : NodeId → NodeId} {group : SortedSet NodeId} {p q : NodeId}
  {s t name : String} {k : Nat}

/-- The name of a node, if it is live. -/
def name? (a : Automaton) (q : NodeId) : Option String := (a.node? q).map (·.name)

/-- The node is live, and its name has the part. -/
def Carries (a : Automaton) (q : NodeId) (s : String) : Prop :=
  ∃ name, a.name? q = some name ∧ s ∈ parts name

theorem Carries.isLive (hq : a.Carries q s) : a.isLive q = true := by
  obtain ⟨name, hname, -⟩ := hq
  obtain ⟨n, hn, -⟩ := Option.map_eq_some_iff.1 hname
  exact isLive_iff.2 ⟨n, hn⟩

theorem exists_name?_of_isLive (hq : a.isLive q = true) : ∃ name, a.name? q = some name := by
  obtain ⟨n, hn⟩ := isLive_iff.1 hq
  exact ⟨n.name, by rw [name?, hn, Option.map_some]⟩

/-- The parts of the names of all live nodes. -/
def allParts (a : Automaton) : List String := a.nodes.entries.flatMap fun x => parts x.2.name

theorem mem_allParts : s ∈ a.allParts ↔ ∃ q, a.Carries q s := by
  simp [allParts, Carries, name?, node?]

/-- The parts of all names are the numbers that were issued, each once. -/
structure Numbered (a : Automaton) : Prop where
  /-- No name has a part twice. -/
  nodup : ∀ q name, a.name? q = some name → (parts name).Nodup
  /-- No two names share a part. -/
  carrier_unique : ∀ s p q, a.Carries p s → a.Carries q s → p = q
  /-- The parts are the numbers below the next one. -/
  carried_iff : ∀ s, (∃ q, a.Carries q s) ↔ ∃ k < a.nextName, s = toString k

namespace Numbered

theorem nodup_allParts (k : a.Numbered) : a.allParts.Nodup := by
  refine List.nodup_flatMap.2 ⟨?_, a.nodes.pairwise_entries.imp_of_mem ?_⟩
  · rintro ⟨q, n⟩ hn
    exact k.nodup q n.name (by simp [name?, node?, Arena.mem_entries.1 hn])
  · rintro ⟨p, m⟩ ⟨q, n⟩ hm hn hlt s hs ht
    have hp : a.Carries p s := ⟨m.name, by simp [name?, node?, Arena.mem_entries.1 hm], hs⟩
    have hq : a.Carries q s := ⟨n.name, by simp [name?, node?, Arena.mem_entries.1 hn], ht⟩
    exact Nat.ne_of_lt hlt (k.carrier_unique s p q hp hq)

theorem perm_allParts (k : a.Numbered) :
    a.allParts.Perm ((List.range a.nextName).map toString) := by
  have hrange : ((List.range a.nextName).map toString).Nodup :=
    List.nodup_range.map fun i j hij => toString_inj.1 hij
  refine (List.perm_ext_iff_of_nodup k.nodup_allParts hrange).2 fun s => ?_
  rw [mem_allParts, k.carried_iff]
  simp [eq_comm]

/-- A name has a part. -/
theorem eq_of_name? (k : a.Numbered) (hp : a.name? p = some name) (hq : a.name? q = some name) :
    p = q := by
  obtain ⟨s, hs⟩ : ∃ s, s ∈ parts name := by
    refine List.exists_mem_of_ne_nil _ ?_
    simp [parts]
  exact k.carrier_unique s p q ⟨name, hp, hs⟩ ⟨name, hq, hs⟩

/-- A name is made of digits and commas. -/
theorem eq_comma_or_isDigit (k : a.Numbered) (hname : a.name? q = some name) {c : Char}
    (hc : c ∈ name.toList) : c = ',' ∨ c.isDigit = true := by
  rcases eq_comma_or_mem_part hc with rfl | ⟨s, hs, hmem⟩
  · exact Or.inl rfl
  · obtain ⟨i, -, rfl⟩ := (k.carried_iff s).1 ⟨q, name, hname, hs⟩
    exact Or.inr (isDigit_of_mem_toString hmem)

end Numbered

/-! ## Merges -/

theorem name?_merged_fresh (hg : ∀ q ∈ group, a.isLive q = true) :
    (a.merged group).name? a.nodes.size =
      some (",".intercalate (group.toList.filterMap a.name?)) := by
  rw [name?, node?_merged_fresh (size_not_mem hg), replacement_eq, Option.map_some, members,
    List.map_filterMap]
  rfl

theorem name?_merged_of_not_mem (hq : q ∉ group) (hm : q ≠ a.nodes.size) :
    (a.merged group).name? q = a.name? q := by
  rw [name?, node?_merged_of_not_mem hq hm, Option.map_map]
  rfl

theorem name?_merged_of_mem (hq : q ∈ group) : (a.merged group).name? q = none := by
  rw [name?, node?_merged_of_mem hq, Option.map_none]

theorem parts_merged (hg : ∀ q ∈ group, a.isLive q = true) (hne : ∃ q, q ∈ group) :
    parts (",".intercalate (group.toList.filterMap a.name?)) =
      (group.toList.filterMap a.name?).flatMap parts := by
  obtain ⟨p, hp⟩ := hne
  obtain ⟨name, hname⟩ := exists_name?_of_isLive (hg p hp)
  exact parts_intercalate (List.ne_nil_of_mem (List.mem_filterMap.2 ⟨p, hp, hname⟩))

/-- A merge moves the parts along its map. -/
theorem carries_merged_iff (hg : ∀ q ∈ group, a.isLive q = true) (hne : ∃ q, q ∈ group) :
    (a.merged group).Carries q s ↔ ∃ p, a.Carries p s ∧ a.freshen group p = q := by
  by_cases hm : q = a.nodes.size
  · subst hm
    simp only [Carries, name?_merged_fresh hg, Option.some.injEq, exists_eq_left',
      parts_merged hg hne, List.mem_flatMap, List.mem_filterMap, SortedSet.mem_toList]
    constructor
    · rintro ⟨name, ⟨p, hp, hname⟩, hs⟩
      exact ⟨p, ⟨name, hname, hs⟩, collapse_of_mem hp⟩
    · rintro ⟨p, ⟨name, hname, hs⟩, hp⟩
      have hlive : a.isLive p = true := Carries.isLive ⟨name, hname, hs⟩
      exact ⟨name, ⟨p, (collapse_eq_fresh_iff (ne_size_of_isLive hlive)).1 hp, hname⟩, hs⟩
  · by_cases hq : q ∈ group
    · simp only [Carries, name?_merged_of_mem hq, reduceCtorEq, false_and, exists_false, false_iff]
      rintro ⟨p, -, hp⟩
      by_cases hmem : p ∈ group
      · exact hm ((collapse_of_mem hmem).symm.trans hp).symm
      · rw [freshen, collapse_of_not_mem hmem] at hp
        exact hmem (hp ▸ hq)
    · simp only [collapse_eq_iff hq hm, exists_eq_right]
      simp only [Carries, name?_merged_of_not_mem hq hm]

namespace Numbered

theorem merged (k : a.Numbered) (hg : ∀ q ∈ group, a.isLive q = true) (hne : ∃ q, q ∈ group) :
    (a.merged group).Numbered where
  nodup q name hname := by
    by_cases hm : q = a.nodes.size
    · subst hm
      rw [name?_merged_fresh hg, Option.some.injEq] at hname
      rw [← hname, parts_merged hg hne]
      refine List.nodup_flatMap.2 ⟨fun name hname => ?_, List.pairwise_filterMap.2 ?_⟩
      · obtain ⟨p, -, hp⟩ := List.mem_filterMap.1 hname
        exact k.nodup p name hp
      · refine group.nodup.imp fun {p r} hpr i hi j hj s hs ht => hpr ?_
        exact k.carrier_unique s p r ⟨i, hi, hs⟩ ⟨j, hj, ht⟩
    · by_cases hq : q ∈ group
      · simp [name?_merged_of_mem hq] at hname
      · rw [name?_merged_of_not_mem hq hm] at hname
        exact k.nodup q name hname
  carrier_unique s p q hp hq := by
    obtain ⟨i, hi, rfl⟩ := (carries_merged_iff hg hne).1 hp
    obtain ⟨j, hj, rfl⟩ := (carries_merged_iff hg hne).1 hq
    rw [k.carrier_unique s i j hi hj]
  carried_iff s := by
    rw [nextName_merged, ← k.carried_iff s]
    constructor
    · rintro ⟨q, hq⟩
      obtain ⟨p, hp, -⟩ := (carries_merged_iff hg hne).1 hq
      exact ⟨p, hp⟩
    · rintro ⟨p, hp⟩
      exact ⟨_, (carries_merged_iff hg hne).2 ⟨p, hp, rfl⟩⟩

/-- The number that names a node stays with what the node becomes. -/
theorem merges (k : a.Numbered) (hm : Merges h a b) :
    b.Numbered ∧ b.nextName = a.nextName ∧
      ∀ q s, b.Carries q s ↔ ∃ p, a.Carries p s ∧ h p = q := by
  induction hm with
  | refl => exact ⟨k, rfl, fun q s => by simp⟩
  | @merge h a b group _ live two ih =>
    obtain ⟨hb, hnext, hcarries⟩ := ih k
    obtain ⟨p, hp, -⟩ := SortedSet.one_lt_size_iff.1 two
    refine ⟨hb.merged live ⟨p, hp⟩, hnext, fun q s => ?_⟩
    rw [carries_merged_iff live ⟨p, hp⟩]
    constructor
    · rintro ⟨r, hr, hrq⟩
      obtain ⟨i, hi, rfl⟩ := (hcarries r s).1 hr
      exact ⟨i, hi, hrq⟩
    · rintro ⟨i, hi, hiq⟩
      exact ⟨h i, (hcarries _ s).2 ⟨i, hi, rfl⟩, hiq⟩
  | resume _ phase frontier ih => exact ⟨⟨(ih k).1.1, (ih k).1.2, (ih k).1.3⟩, (ih k).2⟩

end Numbered

/-! ## Ingestion -/

theorem name?_grow : (a.grow q t).name? p =
    if p = a.nodes.size then some (toString a.nextName) else a.name? p := by
  rw [name?, node?_grow, Option.map_map]
  split <;> rfl

theorem nextName_grow : (a.grow q t).nextName = a.nextName + 1 := rfl

theorem name?_markFinal : (a.markFinal q).name? p = a.name? p := by
  rw [name?, node?_markFinal]
  split
  · rw [Option.map_map]
    rfl
  · rfl

theorem nextName_markFinal : (a.markFinal q).nextName = a.nextName := by
  unfold markFinal
  split <;> rfl

theorem carries_grow_iff : (a.grow q t).Carries p s ↔
    a.Carries p s ∨ (p = a.nodes.size ∧ s = toString a.nextName) := by
  simp only [Carries, name?_grow]
  by_cases hp : p = a.nodes.size
  · subst hp
    have hnone : a.name? a.nodes.size = none := by
      rw [name?, node?, Arena.get?_eq_none_of_le (Nat.le_refl _), Option.map_none]
    rw [if_pos rfl, hnone]
    simp only [Option.some.injEq, exists_eq_left', parts_toString, List.mem_singleton, reduceCtorEq,
      false_and, exists_false, true_and, false_or]
  · simp [hp]

theorem carries_markFinal_iff : (a.markFinal q).Carries p s ↔ a.Carries p s := by
  simp only [Carries, name?_markFinal]

namespace Numbered

theorem grow (k : a.Numbered) (q : NodeId) (t : String) : (a.grow q t).Numbered where
  nodup p name hname := by
    rw [name?_grow] at hname
    split at hname
    · cases hname
      rw [parts_toString]
      exact List.nodup_singleton _
    · exact k.nodup p name hname
  carrier_unique s p r hp hr := by
    -- The number of the fresh node is not issued yet.
    have hnew (i : NodeId) : ¬ a.Carries i (toString a.nextName) := by
      intro hi
      obtain ⟨j, hj, heq⟩ := (k.carried_iff _).1 ⟨i, hi⟩
      exact Nat.ne_of_gt hj (toString_inj.1 heq)
    rcases carries_grow_iff.1 hp with hp | ⟨rfl, rfl⟩ <;>
      rcases carries_grow_iff.1 hr with hr | ⟨rfl, hs⟩
    · exact k.carrier_unique s p r hp hr
    · exact absurd (hs ▸ hp) (hnew p)
    · exact absurd hr (hnew r)
    · rfl
  carried_iff s := by
    rw [nextName_grow]
    simp only [carries_grow_iff, exists_or, k.carried_iff, exists_and_right, exists_eq, true_and,
      Nat.lt_succ_iff_lt_or_eq, or_and_right, exists_eq_left]

theorem markFinal (k : a.Numbered) (q : NodeId) : (a.markFinal q).Numbered where
  nodup p name hname := k.nodup p name (name?_markFinal ▸ hname)
  carrier_unique s p r hp hr :=
    k.carrier_unique s p r (carries_markFinal_iff.1 hp) (carries_markFinal_iff.1 hr)
  carried_iff s := by
    rw [nextName_markFinal]
    simp only [carries_markFinal_iff, k.carried_iff]

theorem grows (k : a.Numbered) (hg : Grows a b) : b.Numbered := by
  induction hg with
  | refl => exact k
  | grow _ _ _ ih => exact ih.grow _ _
  | mark _ q ih => exact ih.markFinal q

end Numbered

namespace Grows

theorem carries (k : Grows a b) (hq : a.Carries q s) : b.Carries q s := by
  induction k with
  | refl => exact hq
  | grow _ _ _ ih => exact carries_grow_iff.2 (Or.inl ih)
  | mark _ q ih => exact carries_markFinal_iff.2 ih

/-- What is new is the number of a fresh node, which is its whole name. -/
theorem carries_cases (k : Grows a b) (hq : b.Carries q s) :
    a.Carries q s ∨ (a.nodes.size ≤ q ∧ b.name? q = some s) := by
  induction k with
  | refl => exact Or.inl hq
  | @grow b r t k _ _ ih =>
    rcases carries_grow_iff.1 hq with hq | ⟨rfl, rfl⟩
    · refine (ih hq).imp_right fun h => ⟨h.1, ?_⟩
      rw [name?_grow, if_neg (ne_size_of_isLive hq.isLive), h.2]
    · refine Or.inr ⟨k.lineage.nodes_size_le, ?_⟩
      rw [name?_grow, if_pos rfl]
  | mark _ r ih =>
    rw [name?_markFinal]
    exact ih (carries_markFinal_iff.1 hq)

end Grows

/-! ## Runs -/

theorem name?_empty : empty.name? q = if q = 0 then some (toString 0) else none := by
  rw [name?, node?, empty, Arena.get?_insert, Arena.size_empty]
  split <;> rfl

theorem carries_empty_iff : empty.Carries q s ↔ q = 0 ∧ s = toString 0 := by
  rw [Carries, name?_empty]
  by_cases hq : q = 0
  · rw [if_pos hq]
    simp only [Option.some.injEq, exists_eq_left', parts_toString, List.mem_singleton, hq, true_and]
  · simp [hq]

theorem numbered_empty : empty.Numbered where
  nodup q name hname := by
    rw [name?_empty] at hname
    split at hname
    · cases hname
      rw [parts_toString]
      exact List.nodup_singleton _
    · cases hname
  carrier_unique s p q hp hq := (carries_empty_iff.1 hp).1.trans (carries_empty_iff.1 hq).1.symm
  carried_iff s := by
    rw [show empty.nextName = 1 from rfl]
    simp only [carries_empty_iff, Nat.lt_one_iff, exists_eq_left]

/-- An action moves the parts along the heirs; what it adds is the number of a fresh node. -/
theorem Coherent.numbered_perform (ha : a.Coherent) (k : a.Numbered) (x : Action) :
    (a.perform x).Numbered ∧ ∀ q s, a.Carries q s → (a.perform x).Carries (a.heirOf q x) s := by
  rcases ha.perform_cases x with ⟨hid, hgrows⟩ | hmerges
  · refine ⟨k.grows hgrows, fun q s hq => ?_⟩
    rw [show a.heirOf q x = q from congrFun hid q]
    exact hgrows.carries hq
  · obtain ⟨hb, -, hcarries⟩ := k.merges hmerges
    exact ⟨hb, fun q s hq => (hcarries _ s).2 ⟨q, hq, rfl⟩⟩

theorem numbered_performAll (actions : List Action) : (empty.performAll actions).Numbered := by
  induction actions using List.reverseRecOn with
  | nil => exact numbered_empty
  | append_singleton actions x ih =>
    rw [performAll_append]
    exact ((coherent_performAll actions).numbered_perform ih x).1

/-- A part that is new after an action is the name of a node that the action has created. -/
theorem Coherent.carries_cases (ha : a.Coherent) (k : a.Numbered) {x : Action}
    (hq : (a.perform x).Carries q s) :
    (∃ p, a.Carries p s ∧ a.heirOf p x = q) ∨
      ∃ sentence, x = .ingest sentence ∧ a.nodes.size ≤ q ∧ (a.perform x).name? q = some s := by
  have old (h : Merges (fun q => a.heirOf q x) a (a.perform x)) :
      ∃ p, a.Carries p s ∧ a.heirOf p x = q := ((k.merges h).2.2 q s).1 hq
  cases x with
  | ingest sentence =>
    rcases (grows_ingestTokens ha.toWellFormed (Text.tokens sentence)).carries_cases hq with h | h
    · exact Or.inl ⟨q, h, rfl⟩
    · exact Or.inr ⟨sentence, rfl, h⟩
  | step => exact Or.inl (old (merges_advance ha.toContract))
  | settle bound => exact Or.inl (old (ha.merges_settle bound))

/-- On this run the node that was created under the number has become the node. -/
inductive Became : List Action → Nat → NodeId → Prop
  /-- The start node is created under zero. -/
  | start : Became [] 0 empty.start
  /-- A node that a sentence adds is created under the number that is its name. -/
  | created {actions : List Action} {sentence : String} {k : Nat} {q : NodeId}
    (fresh : (empty.performAll actions).nodes.size ≤ q)
    (name : ((empty.performAll actions).ingest sentence).name? q = some (toString k)) :
    Became (actions ++ [.ingest sentence]) k q
  /-- A node becomes its heir. -/
  | heir {actions : List Action} {k : Nat} {q : NodeId} (before : Became actions k q)
    (x : Action) : Became (actions ++ [x]) k ((empty.performAll actions).heirOf q x)

theorem Became.carries {actions : List Action} (h : Became actions k q) :
    (empty.performAll actions).Carries q (toString k) := by
  induction h with
  | start => exact carries_empty_iff.2 ⟨rfl, rfl⟩
  | created _ name =>
    rw [performAll_append]
    refine ⟨_, name, ?_⟩
    rw [parts_toString]
    exact List.mem_singleton_self _
  | @heir actions k q _ x ih =>
    rw [performAll_append]
    exact ((coherent_performAll actions).numbered_perform (numbered_performAll actions) x).2 q _ ih

theorem became_of_carries {actions : List Action}
    (h : (empty.performAll actions).Carries q (toString k)) : Became actions k q := by
  induction actions using List.reverseRecOn generalizing q with
  | nil =>
    obtain ⟨rfl, hk⟩ := carries_empty_iff.1 h
    rw [toString_inj.1 hk]
    exact .start
  | append_singleton actions x ih =>
    rw [performAll_append] at h
    rcases (coherent_performAll actions).carries_cases (numbered_performAll actions) h with
      ⟨p, hp, rfl⟩ | ⟨sentence, rfl, hfresh, hname⟩
    · exact (ih hp).heir x
    · exact .created hfresh hname

/-- On every run the parts of the names of all live nodes are the issued numbers, each once, so that
no two live nodes have one name; and every number is in the name of exactly the node that the node
created under it has become. -/
theorem names_record_provenance (actions : List Action) :
    (empty.performAll actions).allParts.Perm
      ((List.range (empty.performAll actions).nextName).map toString) ∧
    (∀ p q name, (empty.performAll actions).name? p = some name →
      (empty.performAll actions).name? q = some name → p = q) ∧
    (∀ k < (empty.performAll actions).nextName, ∃ r,
      (empty.performAll actions).isLive r = true ∧ ∀ q, Became actions k q ↔ q = r) ∧
    ∀ k q name, (empty.performAll actions).name? q = some name →
      (toString k ∈ parts name ↔ Became actions k q) := by
  have hn := numbered_performAll actions
  refine ⟨hn.perm_allParts, fun p q name => hn.eq_of_name?, fun k hk => ?_,
    fun k q name hname => ?_⟩
  · obtain ⟨r, hr⟩ := (hn.carried_iff _).2 ⟨k, hk, rfl⟩
    refine ⟨r, hr.isLive, fun q => ⟨fun hq => hn.carrier_unique _ q r hq.carries hr, ?_⟩⟩
    rintro rfl
    exact became_of_carries hr
  · constructor
    · intro hk
      exact became_of_carries ⟨name, hname, hk⟩
    · intro hq
      obtain ⟨name', hname', hk⟩ := hq.carries
      rw [hname, Option.some.injEq] at hname'
      rwa [hname']

/-- Two sentences whose ends are unified, and one that goes on from there. -/
theorem became_of_unified_ends :
    (empty.performAll [.ingest "a", .ingest "b", .step, .ingest "a c"]).name? 3 = some "1,2" ∧
      Became [.ingest "a", .ingest "b", .step, .ingest "a c"] 1 3 ∧
      Became [.ingest "a", .ingest "b", .step, .ingest "a c"] 2 3 := by
  have hname : (empty.performAll [.ingest "a", .ingest "b", .step, .ingest "a c"]).name? 3 =
      some "1,2" := by decide +kernel
  obtain ⟨-, -, -, h⟩ :=
    names_record_provenance [.ingest "a", .ingest "b", .step, .ingest "a c"]
  exact ⟨hname, (h 1 3 "1,2" hname).1 (by decide +kernel),
    (h 2 3 "1,2" hname).1 (by decide +kernel)⟩

end Automaton

end StateMerging
