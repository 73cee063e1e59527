import Mathlib.Data.List.Perm.Basic
import StateMerging.Command.Options
import StateMerging.Proofs.Names

/-!
# What a command line asks for

`Writes args given sentences` says that arguments write options with their values, each in one of
its forms, and sentences between them.

* `Writes.scan_eq`: that is what they are split into.
* `Writes.parse_eq_of_perm`: the order of the options makes no difference, nor does their form.
* `Writes.parse_eq`: a mode is asked for by the options of `Asks`, whatever else is written.
* `parse_of_sentences`, `parse_steps`, `parse_fixpoint` and `parse_fixpoint_maxSteps`: the command
  lines of the three modes.
-/

namespace StateMerging.Command

/-! ## Writing options -/

/-- Ways to write one option, with its value if it has one. -/
inductive Form : List String → Given → Prop
  | alone {o : OptionName} (h : o.arity ≠ .required) : Form [o.text] (o, none)
  | apart {o : OptionName} {v : String} (h : o.arity = .required)
    (hv : looksLikeOption v = false) : Form [o.text, v] (o, some v)
  | equals {o : OptionName} {v : String} (h : o.arity ≠ .flag) :
    Form [o.text ++ "=" ++ v] (o, some v)
  | letter {o : OptionName} {c : Char} {v : String} (hc : OptionName.ofShort? c = some o)
    (h : o.arity = .required) (hv : looksLikeOption v = false) :
    Form [String.ofList ['-', c], v] (o, some v)
  | joined {o : OptionName} {c d : Char} {ds : List Char} (hc : OptionName.ofShort? c = some o)
    (h : o.arity = .required) (hd : d ≠ '=') :
    Form [String.ofList ('-' :: c :: d :: ds)] (o, some (String.ofList (d :: ds)))

/-- The arguments write options and sentences.  Behind two dashes there are only sentences. -/
inductive Writes : List String → List Given → List String → Prop
  | nil : Writes [] [] []
  | rest (sentences : List String) : Writes ("--" :: sentences) [] sentences
  | option {spelling args sentences : List String} {given : List Given} {g : Given}
    (h : Form spelling g) (more : Writes args given sentences) :
    Writes (spelling ++ args) (g :: given) sentences
  | sentence {arg : String} {args sentences : List String} {given : List Given}
    (h : looksLikeOption arg = false) (more : Writes args given sentences) :
    Writes (arg :: args) given (arg :: sentences)

variable {args args' spelling sentences : List String} {given given' : List Given} {arg v : String}
  {c : Char} {cs : List Char} {o : OptionName} {n : Nat} {mode : Mode}

/-! ## Numbers -/

theorem toString_eq_cons (n : Nat) :
    ∃ d ds, (toString n).toList = d :: ds ∧ ∀ x ∈ d :: ds, x.isDigit = true := by
  obtain ⟨d, ds, h⟩ := List.exists_cons_of_ne_nil (Nat.toDigits_ne_nil (n := n) (b := 10))
  have hlist : (toString n).toList = d :: ds := by
    rw [Nat.toString_eq_repr, Nat.repr_eq_ofList_toDigits, String.toList_ofList, h]
  exact ⟨d, ds, hlist, fun x hx => isDigit_of_mem_toString (hlist ▸ hx)⟩

theorem digits?_toString (n : Nat) : digits? (toString n).toList = some n := by
  have hdigits : (toString n).toList ≠ [] ∧ (toString n).toList.all Char.isDigit = true := by
    obtain ⟨d, ds, hlist, hall⟩ := toString_eq_cons n
    rw [hlist, List.all_eq_true]
    exact ⟨List.cons_ne_nil d ds, hall⟩
  rw [digits?, if_pos hdigits, Nat.toString_eq_repr, Nat.repr_eq_ofList_toDigits,
    String.toList_ofList]
  exact congrArg some (Nat.ofDigitChars_toDigits (by decide) (by decide))

theorem parseCount?_toString (hn : n < countLimit) : parseCount? (toString n) = some n := by
  obtain ⟨d, ds, hlist, hall⟩ := toString_eq_cons n
  have hplus : d ≠ '+' := by
    rintro rfl
    exact absurd (hall '+' List.mem_cons_self) (by decide)
  have hread := digits?_toString n
  rw [hlist] at hread
  rw [parseCount?, hlist]
  split
  · rename_i heq
    exact absurd (List.cons.inj heq).1 hplus
  · rw [hread]
    simp [hn]

theorem looksLikeOption_toString (n : Nat) : looksLikeOption (toString n) = false := by
  obtain ⟨d, ds, hlist, hall⟩ := toString_eq_cons n
  have hdash : d ≠ '-' := by
    rintro rfl
    exact absurd (hall '-' List.mem_cons_self) (by decide)
  rw [looksLikeOption, hlist]
  split
  · rename_i heq
    exact absurd (List.cons.inj heq).1 hdash
  · rfl

/-! ## Forms of an option -/

theorem OptionName.text_eq (o : OptionName) :
    ∃ d ds, o.text.toList = '-' :: '-' :: d :: ds ∧ (d :: ds).all (· ≠ '=') = true ∧
      ofLong? (String.ofList (d :: ds)) = some o := by
  cases o <;> exact ⟨_, _, rfl, rfl, rfl⟩

theorem OptionName.toList_text_equals (h : o.text.toList = '-' :: '-' :: cs) (v : String) :
    (o.text ++ "=" ++ v).toList = '-' :: '-' :: (cs ++ '=' :: v.toList) := by
  simp [h]

theorem cutLong_of_all (h : cs.all (· ≠ '=') = true) : cutLong cs = (String.ofList cs, none) := by
  have hname : cs.takeWhile (· ≠ '=') = cs := List.takeWhile_eq_self_iff.2 (List.all_eq_true.1 h)
  simp only [cutLong, hname, List.drop_length]

theorem cutLong_append (h : cs.all (· ≠ '=') = true) (value : List Char) :
    cutLong (cs ++ '=' :: value) = (String.ofList cs, some (String.ofList value)) := by
  have hname : (cs ++ '=' :: value).takeWhile (· ≠ '=') = cs := by
    rw [List.takeWhile_append_of_pos (List.all_eq_true.1 h)]
    simp
  simp only [cutLong, hname, List.drop_left]

theorem readOption_text (o : OptionName) :
    readOption o.text =
      if o.arity = .required then .ok ([], some o) else .ok ([(o, none)], none) := by
  obtain ⟨d, ds, htext, hequals, hlong⟩ := o.text_eq
  rw [readOption, htext]
  simp only [cutLong_of_all hequals, hlong]
  cases o.arity <;> rfl

theorem readOption_equals (h : o.arity ≠ .flag) (v : String) :
    readOption (o.text ++ "=" ++ v) = .ok ([(o, some v)], none) := by
  obtain ⟨d, ds, htext, hequals, hlong⟩ := o.text_eq
  rw [readOption, OptionName.toList_text_equals htext]
  simp only [cutLong_append hequals, hlong, String.ofList_toList]
  cases ho : o.arity with
  | flag => exact absurd ho h
  | optional => rfl
  | required => rfl

theorem readOption_letters (hc : c ≠ '-') :
    readOption (String.ofList ('-' :: c :: cs)) = cluster (c :: cs) := by
  rw [readOption, String.toList_ofList]
  split
  · rename_i heq
    exact absurd (List.cons.inj (List.cons.inj heq).2).1 hc
  · rename_i heq
    rw [(List.cons.inj heq).2]
  · rename_i h
    exact absurd rfl (h (c :: cs))

/-! ## Splitting the arguments -/

theorem looksLikeOption_of_toList (h : arg.toList = '-' :: c :: cs) (hne : c :: cs ≠ ['-']) :
    arg ≠ "--" ∧ looksLikeOption arg = true := by
  constructor
  · rintro rfl
    exact hne (List.cons.inj h).2.symm
  · rw [looksLikeOption, h]
    rfl

theorem scan_cons {g : Given} (hl : arg ≠ "--" ∧ looksLikeOption arg = true)
    (h : readOption arg = .ok ([g], none)) :
    scan (arg :: args) = (scan args).map fun p => (g :: p.1, p.2) := by
  rw [scan, if_neg hl.1, if_pos hl.2, h]
  rfl

theorem scan_cons_cons (hl : arg ≠ "--" ∧ looksLikeOption arg = true)
    (h : readOption arg = .ok ([], some o)) (hv : looksLikeOption v = false) :
    scan (arg :: v :: args) = (scan args).map fun p => ((o, some v) :: p.1, p.2) := by
  rw [scan, if_neg hl.1, if_pos hl.2, h]
  simp only [hv]
  rfl

theorem OptionName.looksLikeOption_text (o : OptionName) :
    o.text ≠ "--" ∧ looksLikeOption o.text = true := by
  cases o <;> decide

theorem ne_dash_of_ofShort? (h : OptionName.ofShort? c = some o) : c ≠ '-' := by
  rintro rfl
  cases h

theorem Form.scan_append {g : Given} (h : Form spelling g) (args : List String) :
    scan (spelling ++ args) = (scan args).map fun p => (g :: p.1, p.2) := by
  cases h with
  | alone h =>
    exact scan_cons (OptionName.looksLikeOption_text _) (by rw [readOption_text, if_neg h])
  | apart h hv =>
    exact scan_cons_cons (OptionName.looksLikeOption_text _) (by rw [readOption_text, if_pos h]) hv
  | @equals o v h =>
    obtain ⟨d, ds, htext, -⟩ := o.text_eq
    have hlist := OptionName.toList_text_equals htext v
    exact scan_cons (looksLikeOption_of_toList hlist (by simp)) (readOption_equals h v)
  | letter hc h hv =>
    have hdash := ne_dash_of_ofShort? hc
    refine scan_cons_cons (looksLikeOption_of_toList String.toList_ofList (by simpa)) ?_ hv
    rw [readOption_letters hdash]
    simp [cluster, hc, h]
  | joined hc h hd =>
    refine scan_cons (looksLikeOption_of_toList String.toList_ofList (by simp)) ?_
    rw [readOption_letters (ne_dash_of_ofShort? hc)]
    simp [cluster, hc, h, hd]

theorem Writes.scan_eq (k : Writes args given sentences) : scan args = .ok (given, sentences) := by
  induction k with
  | nil => rfl
  | rest sentences => rfl
  | option h _ ih =>
    rw [h.scan_append, ih]
    rfl
  | @sentence arg args sentences given h _ ih =>
    have hne : arg ≠ "--" := by
      rintro rfl
      exact absurd h (by decide)
    rw [scan, if_neg hne, h, ih]
    rfl

theorem writes_of_sentences (h : ∀ arg ∈ args, looksLikeOption arg = false) :
    Writes args [] args := by
  induction args with
  | nil => exact .nil
  | cons arg args ih =>
    rw [List.forall_mem_cons] at h
    exact .sentence h.1 (ih h.2)

/-! ## Looking options up -/

theorem lookup_eq_of_perm (h : given.Perm given') (o : OptionName) :
    lookup o given = lookup o given' := by
  have hfilter := h.filter fun g => decide (g.1 = o)
  rw [lookup, lookup]
  generalize given.filter _ = l, given'.filter _ = l' at hfilter ⊢
  match l, hfilter with
  | [], hfilter => rw [List.nil_perm.1 hfilter]
  | [g], hfilter => rw [List.singleton_perm.1 hfilter]
  | g :: g' :: l, hfilter =>
    match l', hfilter.length_eq with
    | _ :: _ :: l', _ => rfl

theorem lookup_append_left (h : ∀ g ∈ given', g.1 ≠ o) :
    lookup o (given ++ given') = lookup o given := by
  have hnone : given'.filter (·.1 = o) = [] := by simpa using h
  rw [lookup, lookup, List.filter_append, hnone, List.append_nil]

theorem lookup_append_right (h : ∀ g ∈ given, g.1 ≠ o) :
    lookup o (given ++ given') = lookup o given' := by
  rw [lookup_eq_of_perm List.perm_append_comm, lookup_append_left h]

theorem lookupWith_congr {α : Type} (h : lookup o given = lookup o given')
    (read : Option String → Option α) : lookupWith o read given = lookupWith o read given' := by
  rw [lookupWith, lookupWith, h]

theorem lookupWith_eq {α : Type} {x : Option α} {read : Option String → Option α}
    {f : α → Option String} (h : lookup o given = .ok (x.map f))
    (hread : ∀ y, x = some y → read (f y) = some y) : lookupWith o read given = .ok x := by
  rw [lookupWith, h]
  cases x with
  | none => rfl
  | some y => simp [Except.bind, hread y rfl]

theorem lookupWith_parseCount? (h : lookup o given = .ok (some (some (toString n))))
    (hn : n < countLimit) : lookupWith o (·.bind parseCount?) given = .ok (some n) := by
  rw [lookupWith, h]
  simp only [Except.bind, Option.bind_some, parseCount?_toString hn]

theorem Writes.parse_eq_of_perm (k : Writes args given sentences)
    (k' : Writes args' given' sentences) (h : given.Perm given') :
    Options.parse args = Options.parse args' := by
  rw [Options.parse, Options.parse, k.scan_eq, k'.scan_eq]
  simp only [lookupWith, lookup_eq_of_perm h, bind, Except.bind]

/-! ## Modes -/

/-- The options by which a mode is asked for. -/
inductive Asks : List Given → Mode → Prop
  | interactive : Asks [] .interactive
  | steps {n : Nat} (hn : n < countLimit) : Asks [(.steps, some (toString n))] (.steps n)
  | fixpoint : Asks [(.fixpoint, none)] (.fixpoint defaultBound)
  | bounded {bound : Nat} (h : bound < countLimit) :
    Asks [(.fixpoint, none), (.maxSteps, some (toString bound))] (.fixpoint bound)

def Verbosity.text : Verbosity → String
  | info => "info"
  | debug => "debug"
  | trace => "trace"

theorem Verbosity.parse?_text (v : Verbosity) : Verbosity.parse? (some v.text) = some v := by
  cases v <;> rfl

/-- The options by which everything but the mode is asked for. -/
def Options.others (o : Options) : List Given :=
  (o.verbosity.map fun v => (.verbosity, some v.text)).toList ++
    (o.file.map fun file => (.file, some file)).toList ++
    if o.keepEmpty then [(.keepEmpty, none)] else []

def OptionName.setsMode : OptionName → Bool
  | steps | fixpoint | maxSteps => true
  | verbosity | file | keepEmpty => false

theorem Asks.setsMode (k : Asks given mode) : ∀ g ∈ given, g.1.setsMode = true := by
  cases k <;> simp [OptionName.setsMode]

theorem Options.setsMode_of_mem_others {o : Options} {g : Given} (h : g ∈ o.others) :
    g.1.setsMode = false := by
  simp only [others, List.mem_append, Option.mem_toList, Option.map_eq_some_iff] at h
  rcases h with (⟨v, -, rfl⟩ | ⟨file, -, rfl⟩) | h
  · rfl
  · rfl
  · split at h
    · rw [List.mem_singleton.1 h]
      rfl
    · exact absurd h List.not_mem_nil

theorem Options.lookup_others (o : Options) :
    lookup .verbosity o.others = .ok (o.verbosity.map fun v => some v.text) ∧
      lookup .file o.others = .ok (o.file.map some) ∧
      ∃ kept, lookup .keepEmpty o.others = .ok kept ∧ kept.isSome = o.keepEmpty := by
  rcases o with ⟨_ | v, _ | file, _ | _, mode, sentences⟩ <;> exact ⟨rfl, rfl, _, rfl, rfl⟩

theorem Asks.lookup_eq (k : Asks given mode) : ∃ steps fixpoint maxSteps,
    lookupWith .steps (·.bind parseCount?) given = .ok steps ∧
      lookup .fixpoint given = .ok fixpoint ∧
      lookupWith .maxSteps (·.bind parseCount?) given = .ok maxSteps ∧
      Mode.choose steps fixpoint.isSome maxSteps = .ok mode := by
  cases k with
  | interactive => exact ⟨none, none, none, rfl, rfl, rfl, rfl⟩
  | @steps n hn =>
    exact ⟨some n, none, none, lookupWith_parseCount? rfl hn, rfl, rfl, rfl⟩
  | fixpoint => exact ⟨none, some none, none, rfl, rfl, rfl, rfl⟩
  | @bounded bound h =>
    exact ⟨none, some none, some bound, rfl, rfl, lookupWith_parseCount? rfl h, rfl⟩

/-- Arguments that write the options for a mode and for everything else are read as what they ask
for. -/
theorem Writes.parse_eq {r : Options} {l : List Given} (hfile : r.file ≠ some "")
    (hmode : Asks l r.mode) (k : Writes args given r.sentences) (h : given.Perm (r.others ++ l)) :
    Options.parse args = .ok r := by
  have hothers (p : OptionName) (hp : p.setsMode = false) : lookup p given = lookup p r.others := by
    rw [lookup_eq_of_perm h, lookup_append_left]
    rintro g hg rfl
    exact absurd (hmode.setsMode g hg) (by simp [hp])
  have hmodes (p : OptionName) (hp : p.setsMode = true) : lookup p given = lookup p l := by
    rw [lookup_eq_of_perm h, lookup_append_right]
    rintro g hg rfl
    exact absurd (Options.setsMode_of_mem_others hg) (by simp [hp])
  obtain ⟨hverbosity, hname, kept, hkeep, hkept⟩ := r.lookup_others
  obtain ⟨steps, fixpoint, maxSteps, hsteps, hfixpoint, hmax, hchoose⟩ := hmode.lookup_eq
  have hreadable : ∀ name, r.file = some name → (some name).bind nonempty? = some name := by
    intro name hf
    have hne : name ≠ "" := fun e => hfile (e ▸ hf)
    simp [nonempty?, hne]
  have hv : lookupWith .verbosity Verbosity.parse? given = .ok r.verbosity :=
    lookupWith_eq ((hothers .verbosity rfl).trans hverbosity) fun v _ => v.parse?_text
  have hf : lookupWith .file (·.bind nonempty?) given = .ok r.file :=
    lookupWith_eq ((hothers .file rfl).trans hname) hreadable
  rw [← lookupWith_congr (hmodes .steps rfl)] at hsteps
  rw [← hmodes .fixpoint rfl] at hfixpoint
  rw [← lookupWith_congr (hmodes .maxSteps rfl)] at hmax
  rw [← hothers .keepEmpty rfl] at hkeep
  rw [Options.parse, k.scan_eq]
  simp only [hv, hf, hkeep, hkept, hsteps, hfixpoint, hmax, hchoose, bind, Except.bind]
  rfl

example : Options.parse ["a b", "-n3", "--file=x y", "-", "c"] =
    .ok { file := some "x y", mode := .steps 3, sentences := ["a b", "-", "c"] } := by
  rfl

/-- A number of steps and the fixpoint exclude each other, in whatever order they are asked for. -/
theorem Writes.parse_eq_conflict (hn : n < countLimit) (k : Writes args given sentences)
    (h : given.Perm [(.steps, some (toString n)), (.fixpoint, none)]) :
    Options.parse args = .error (.conflict .steps .fixpoint) := by
  have hsteps : lookupWith .steps (·.bind parseCount?)
      [(.steps, some (toString n)), (.fixpoint, none)] = .ok (some n) :=
    lookupWith_parseCount? rfl hn
  rw [Options.parse, k.scan_eq]
  simp only [lookupWith_congr (lookup_eq_of_perm h _), lookup_eq_of_perm h, hsteps, bind,
    Except.bind]
  rfl

section

variable (h : ∀ arg ∈ sentences, looksLikeOption arg = false)
include h

theorem parse_of_sentences : Options.parse sentences = .ok { sentences } :=
  (writes_of_sentences h).parse_eq (r := { sentences }) nofun .interactive (.refl _)

theorem parse_steps (hn : n < countLimit) :
    Options.parse ("-n" :: toString n :: sentences) = .ok { mode := .steps n, sentences } := by
  have k := Writes.option (.letter (o := .steps) (c := 'n') rfl rfl (looksLikeOption_toString n))
    (writes_of_sentences h)
  exact k.parse_eq (r := { mode := .steps n, sentences }) nofun (.steps hn) (.refl _)

theorem parse_fixpoint :
    Options.parse ("--fixpoint" :: sentences) =
      .ok { mode := .fixpoint defaultBound, sentences } := by
  have k := Writes.option (.alone (o := .fixpoint) (by decide)) (writes_of_sentences h)
  exact k.parse_eq (r := { mode := .fixpoint defaultBound, sentences }) nofun .fixpoint (.refl _)

theorem parse_fixpoint_maxSteps (hn : n < countLimit) :
    Options.parse ("--fixpoint" :: "--max-steps" :: toString n :: sentences) =
      .ok { mode := .fixpoint n, sentences } := by
  have hbound := Writes.option (.apart (o := .maxSteps) rfl (looksLikeOption_toString n))
    (writes_of_sentences h)
  have k := Writes.option (.alone (o := .fixpoint) (by decide)) hbound
  exact k.parse_eq (r := { mode := .fixpoint n, sentences }) nofun (.bounded hn) (.refl _)

end

end StateMerging.Command
