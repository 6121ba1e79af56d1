import Ember.Command.Dispatch
import Ember.Proofs.Text.Numeral
import Mathlib.Data.List.Basic

/-!
# How options are read

What a text stands for as a limit (`Stands`), which arguments are accepted and why others are
refused (`Accepted`, `Refused`) is said here without reading anything. One argument at a time is
read onto the options and the arguments kept so far (`readArgument`), and reading them all is the
fold of that from left to right (`applyArguments_eq_foldlM`). So the first argument that is refused
decides (`foldlM_of_refused`), and where none is, the last flag does (`foldlM_of_accepted`).
-/

namespace Ember.Options

variable {text value arg : String} {limit base : Option Nat} {n : Nat} {e : CommandError}

/-! ## Limits -/

/-- The text stands for the limit: it is a numeral that fits in 64 bits, and zero is no limit. -/
def Stands (text : String) (limit : Option Nat) : Prop :=
  ∃ n, Text.Spells text.toList n ∧ n ≤ 2 ^ 64 - 1 ∧ limit = if n = 0 then none else some n

/-- The text stands for some limit. -/
def IsDepth (text : String) : Prop := ∃ limit, Stands text limit

theorem depthBound_le_iff : depthBound ≤ n ↔ ¬n ≤ 2 ^ 64 - 1 := by
  unfold depthBound
  omega

theorem readDepth_of_stands (h : Stands text limit) : readDepth text = .ok limit := by
  obtain ⟨n, hn, hle, rfl⟩ := h
  unfold readDepth
  rw [Text.readNat?_trim_eq_some_iff.mpr hn]
  exact if_neg fun hbound => depthBound_le_iff.mp hbound hle

theorem readDepth_of_not_isDepth (h : ¬IsDepth text) :
    readDepth text = .error (.badDepth text) := by
  unfold readDepth
  split
  · next n hn =>
    have hspells := Text.readNat?_trim_eq_some_iff.mp hn
    exact if_pos (depthBound_le_iff.mpr fun hle => h ⟨_, n, hspells, hle, rfl⟩)
  · rfl

/-- Exactly the texts that stand for a limit are read, and as that limit. -/
theorem readDepth_eq_ok_iff : readDepth text = .ok limit ↔ Stands text limit := by
  refine ⟨fun h => ?_, readDepth_of_stands⟩
  by_cases hdepth : IsDepth text
  · obtain ⟨limit', hstands⟩ := hdepth
    rw [readDepth_of_stands hstands] at h
    cases h
    exact hstands
  · rw [readDepth_of_not_isDepth hdepth] at h
    cases h

/-- The texts of a flag and of the environment stand for one limit at most. -/
theorem Stands.unique {limit' : Option Nat} (h : Stands text limit) (h' : Stands text limit') :
    limit = limit' :=
  Except.ok.inj ((readDepth_of_stands h).symm.trans (readDepth_of_stands h'))

/-! ## Arguments -/

/-- Whether an argument starts with a dash. -/
def isDashed (arg : String) : Bool := arg.toList.head? = some '-'

/-- What follows the name of the flag in an argument. -/
def flagValue? (arg : String) : Option String :=
  (depthFlag.isPrefixOf? arg.toList).map String.ofList

theorem flagValue?_eq_some_iff : flagValue? arg = some value ↔ arg = "--max-depth=" ++ value := by
  have htext : ∀ cs, String.ofList cs = value ↔ cs = value.toList := fun cs =>
    ⟨fun h => by rw [← h, String.toList_ofList], fun h => by rw [h, String.ofList_toList]⟩
  unfold flagValue? depthFlag
  rw [Option.map_eq_some_iff]
  simp only [List.isPrefixOf?_eq_some_iff_append_eq, htext, exists_eq_right,
    ← String.toList_append, String.toList_inj]
  exact eq_comm

/-- A flag starts with a dash. -/
theorem isDashed_flag (value : String) : isDashed ("--max-depth=" ++ value) = true := by
  simp [isDashed, String.toList_append]

/-- An argument is accepted if it starts with no dash or is a flag that stands for a limit. -/
def Accepted (arg : String) : Prop :=
  isDashed arg = false ∨ ∃ value, arg = "--max-depth=" ++ value ∧ IsDepth value

/-- Why an argument is refused. -/
inductive Refused : String → CommandError → Prop
  | depth (value : String) (h : ¬IsDepth value) :
      Refused ("--max-depth=" ++ value) (.badDepth value)
  | option (arg : String) (hdash : isDashed arg = true)
      (h : ∀ value, arg ≠ "--max-depth=" ++ value) : Refused arg (.unknownOption arg)

theorem exists_refused_of_not_accepted (h : ¬Accepted arg) : ∃ e, Refused arg e := by
  rw [Accepted, not_or, Bool.not_eq_false] at h
  obtain ⟨hdash, hdepth⟩ := h
  by_cases hflag : ∃ value, arg = "--max-depth=" ++ value
  · obtain ⟨value, rfl⟩ := hflag
    exact ⟨_, .depth value fun hv => hdepth ⟨value, rfl, hv⟩⟩
  · exact ⟨_, .option arg hdash (not_exists.mp hflag)⟩

/-! ## One argument -/

/-- Reads one argument onto the options and the arguments that were kept so far. -/
def readArgument (state : Options × List String) (arg : String) :
    Except CommandError (Options × List String) :=
  match flagValue? arg with
  | some value => do
    let maxDepth ← readDepth value
    return ({ state.1 with maxDepth }, state.2)
  | none => if isDashed arg then .error (.unknownOption arg) else .ok (state.1, state.2 ++ [arg])

/-- What was kept before does not matter to what is read. -/
theorem foldlM_readArgument (options : Options) (kept args : List String) :
    args.foldlM readArgument (options, kept)
      = (options.applyArguments args).map fun r => (r.1, kept ++ r.2) := by
  induction args generalizing options kept with
  | nil => simp [applyArguments, Except.map, pure, Except.pure]
  | cons arg args ih =>
    rw [List.foldlM_cons]
    unfold applyArguments readArgument flagValue?
    cases depthFlag.isPrefixOf? arg.toList with
    | some cs =>
      cases hdepth : readDepth (String.ofList cs) with
      | error e => simp [hdepth, bind, Except.bind, Except.map]
      | ok maxDepth =>
        simp only [Option.map_some, hdepth]
        exact ih { options with maxDepth } kept
    | none =>
      by_cases hdash : arg.toList.head? = some '-'
      · simp [hdash, isDashed, bind, Except.bind, Except.map]
      · simp only [Option.map_none, hdash, isDashed, decide_false, Bool.false_eq_true, if_false]
        show args.foldlM readArgument (options, kept ++ [arg]) = _
        rw [ih]
        cases options.applyArguments args <;>
          simp [bind, Except.bind, Except.map, pure, Except.pure]

/-- Reading the arguments is reading one after the other. -/
theorem applyArguments_eq_foldlM (options : Options) (args : List String) :
    options.applyArguments args = args.foldlM readArgument (options, []) := by
  rw [foldlM_readArgument]
  cases options.applyArguments args <;> rfl

/-- The limit is what the text stands for, or the one before where there is no text. -/
def Decides (base : Option Nat) (text : Option String) (limit : Option Nat) : Prop :=
  match text with
  | some text => Stands text limit
  | none => limit = base

theorem Decides.unique {text : Option String} {limit' : Option Nat}
    (h : Decides base text limit) (h' : Decides base text limit') : limit = limit' := by
  cases text with
  | some text => exact Stands.unique h h'
  | none => exact Eq.trans h h'.symm

/-- Of two texts the later one decides. -/
theorem Decides.trans {first last : Option String} {middle : Option Nat}
    (h : Decides base first middle) (h' : Decides middle last limit) :
    Decides base (last.or first) limit := by
  cases last with
  | some text => exact h'
  | none =>
    have hlimit : limit = middle := h'
    rw [hlimit]
    exact h

theorem readArgument_of_refused (h : Refused arg e) (state : Options × List String) :
    readArgument state arg = .error e := by
  unfold readArgument
  cases h with
  | depth value h =>
    rw [flagValue?_eq_some_iff.mpr rfl]
    simp only [readDepth_of_not_isDepth h]
    rfl
  | option arg hdash h =>
    have hnone : flagValue? arg = none := Option.eq_none_iff_forall_ne_some.mpr fun value hv =>
      h value (flagValue?_eq_some_iff.mp hv)
    rw [hnone]
    exact if_pos hdash

/-- An argument that is accepted is kept or decides the limit. -/
theorem readArgument_of_accepted (h : Accepted arg) (state : Options × List String) : ∃ options,
    readArgument state arg = .ok (options, state.2 ++ [arg].filter (!isDashed ·)) ∧
      Decides state.1.maxDepth (flagValue? arg) options.maxDepth := by
  unfold readArgument
  cases hvalue : flagValue? arg with
  | some value =>
    have harg := flagValue?_eq_some_iff.mp hvalue
    have hdash : isDashed arg = true := by rw [harg, isDashed_flag]
    rcases h with hno | ⟨value', hvalue', limit, hlimit⟩
    · rw [hdash] at hno
      cases hno
    · rw [flagValue?_eq_some_iff.mpr hvalue'] at hvalue
      cases hvalue
      refine ⟨{ state.1 with maxDepth := limit }, ?_, hlimit⟩
      simp only [readDepth_of_stands hlimit, List.filter_singleton, hdash]
      rw [Bool.not_true, cond_false, List.append_nil]
      rfl
  | none =>
    have hdash : isDashed arg = false := by
      rcases h with hno | ⟨value, rfl, -⟩
      · exact hno
      · rw [flagValue?_eq_some_iff.mpr rfl] at hvalue
        cases hvalue
    refine ⟨state.1, ?_, rfl⟩
    simp [hdash]

/-! ## All arguments -/

/-- The first argument that is refused decides, whatever comes behind it. -/
theorem foldlM_of_refused {before after : List String} (hbefore : ∀ a ∈ before, Accepted a)
    (h : Refused arg e) (state : Options × List String) :
    (before ++ arg :: after).foldlM readArgument state = .error e := by
  induction before generalizing state with
  | nil =>
    rw [List.nil_append, List.foldlM_cons, readArgument_of_refused h]
    rfl
  | cons a before ih =>
    obtain ⟨options, ha, -⟩ := readArgument_of_accepted (hbefore a List.mem_cons_self) state
    rw [List.cons_append, List.foldlM_cons, ha]
    exact ih (fun a ha => hbefore a (List.mem_cons_of_mem _ ha)) _

theorem getLast?_filterMap_cons {α β : Type} (f : α → Option β) (a : α) (as : List α) :
    ((a :: as).filterMap f).getLast? = (as.filterMap f).getLast?.or (f a) := by
  rw [List.filterMap_cons]
  cases f a with
  | none => exact Option.or_none.symm
  | some b => rw [List.getLast?_cons, Option.or_some]

/-- Where all are accepted, the last flag decides, and what is no flag is kept in its order. -/
theorem foldlM_of_accepted {args : List String} (h : ∀ a ∈ args, Accepted a)
    (state : Options × List String) : ∃ options,
    args.foldlM readArgument state = .ok (options, state.2 ++ args.filter (!isDashed ·)) ∧
      Decides state.1.maxDepth (args.filterMap flagValue?).getLast? options.maxDepth := by
  induction args generalizing state with
  | nil => exact ⟨state.1, by simp [pure, Except.pure], rfl⟩
  | cons a args ih =>
    obtain ⟨middle, ha, hmiddle⟩ := readArgument_of_accepted (h a List.mem_cons_self) state
    obtain ⟨options, hrun, hoptions⟩ := ih (fun b hb => h b (List.mem_cons_of_mem _ hb))
      (middle, state.2 ++ [a].filter (!isDashed ·))
    refine ⟨options, ?_, ?_⟩
    · rw [List.foldlM_cons, ha]
      show args.foldlM readArgument _ = _
      rw [hrun, List.append_assoc, ← List.filter_append, List.singleton_append]
    · rw [getLast?_filterMap_cons]
      exact hmiddle.trans hoptions

theorem exists_first_refused {args : List String} (h : ¬∀ a ∈ args, Accepted a) :
    ∃ before arg after e, args = before ++ arg :: after ∧ (∀ a ∈ before, Accepted a) ∧
      Refused arg e := by
  induction args with
  | nil => exact absurd (fun _ ha => absurd ha List.not_mem_nil) h
  | cons a args ih =>
    by_cases ha : Accepted a
    · have hargs : ¬∀ b ∈ args, Accepted b := fun hall =>
        h (List.forall_mem_cons.mpr ⟨ha, hall⟩)
      obtain ⟨before, arg, after, e, rfl, hbefore, harg⟩ := ih hargs
      exact ⟨a :: before, arg, after, e, rfl, List.forall_mem_cons.mpr ⟨ha, hbefore⟩, harg⟩
    · obtain ⟨e, he⟩ := exists_refused_of_not_accepted ha
      exact ⟨[], a, args, e, rfl, fun _ hb => absurd hb List.not_mem_nil, he⟩

/-! ## Environment and arguments -/

/-- The text that decides: that of the last flag, or else that of the environment. -/
def decisive? (env : Option String) (args : List String) : Option String :=
  (args.filterMap flagValue?).getLast?.or env

/-- What comes of the environment and the arguments. -/
inductive Reads (env : Option String) (args : List String) :
    Except CommandError (Options × List String) → Prop
  | environment {text : String} (henv : env = some text) (h : ¬IsDepth text) :
      Reads env args (.error (.badDepth text))
  | argument {before after : List String} {arg : String} {e : CommandError}
      (henv : ∀ text, env = some text → IsDepth text) (hargs : args = before ++ arg :: after)
      (hbefore : ∀ a ∈ before, Accepted a) (harg : Refused arg e) : Reads env args (.error e)
  | accepted {options : Options} (henv : ∀ text, env = some text → IsDepth text)
      (hargs : ∀ a ∈ args, Accepted a)
      (h : Decides (some 2000) (decisive? env args) options.maxDepth) :
      Reads env args (.ok (options, args.filter (!isDashed ·)))

variable {env : Option String} {args : List String}

theorem ofEnvironment_of_isDepth (h : ∀ text, env = some text → IsDepth text) : ∃ options,
    ofEnvironment env = .ok options ∧ Decides (some 2000) env options.maxDepth := by
  cases env with
  | none => exact ⟨{}, rfl, rfl⟩
  | some text =>
    obtain ⟨limit, hlimit⟩ := h text rfl
    refine ⟨⟨limit⟩, ?_, hlimit⟩
    rw [ofEnvironment, readDepth_of_stands hlimit]
    rfl

theorem options_of_isDepth (h : ∀ text, env = some text → IsDepth text) (args : List String) :
    ∃ options, Plan.options env args = args.foldlM readArgument (options, []) ∧
      Decides (some 2000) env options.maxDepth := by
  obtain ⟨options, henv, hlimit⟩ := ofEnvironment_of_isDepth h
  refine ⟨options, ?_, hlimit⟩
  rw [Plan.options, henv, ← applyArguments_eq_foldlM]
  rfl

theorem options_of_accepted (henv : ∀ text, env = some text → IsDepth text)
    (hargs : ∀ a ∈ args, Accepted a) : ∃ options : Options,
    Plan.options env args = .ok (options, args.filter (!isDashed ·)) ∧
      Decides (some 2000) (decisive? env args) options.maxDepth := by
  obtain ⟨base, hrun, hbase⟩ := options_of_isDepth henv args
  obtain ⟨options, hok, hoptions⟩ := foldlM_of_accepted hargs (base, [])
  exact ⟨options, hrun.trans hok, hbase.trans hoptions⟩

/-- What is read is what the environment and the arguments say. -/
theorem Reads.options_eq {r : Except CommandError (Options × List String)}
    (h : Reads env args r) : Plan.options env args = r := by
  cases h with
  | environment henv h =>
    rw [henv, Plan.options, ofEnvironment, readDepth_of_not_isDepth h]
    rfl
  | argument henv hargs hbefore harg =>
    obtain ⟨options, hrun, -⟩ := options_of_isDepth henv args
    rw [hrun, hargs]
    exact foldlM_of_refused hbefore harg _
  | @accepted options henv hargs h =>
    obtain ⟨options', hok, hoptions⟩ := options_of_accepted henv hargs
    have hoptions : options' = options := congrArg Options.mk (hoptions.unique h)
    rw [hok, hoptions]

/-- Something comes of every environment and all arguments. -/
theorem exists_reads (env : Option String) (args : List String) : ∃ r, Reads env args r := by
  by_cases henv : ∀ text, env = some text → IsDepth text
  · by_cases hargs : ∀ a ∈ args, Accepted a
    · obtain ⟨options, -, hoptions⟩ := options_of_accepted henv hargs
      exact ⟨_, .accepted henv hargs hoptions⟩
    · obtain ⟨before, arg, after, e, hsplit, hbefore, harg⟩ := exists_first_refused hargs
      exact ⟨_, .argument henv hsplit hbefore harg⟩
  · obtain ⟨text, henv⟩ := not_forall.mp henv
    obtain ⟨henv, htext⟩ := Classical.not_imp.mp henv
    exact ⟨_, .environment henv htext⟩

/--
The environment and the arguments decide what is read (`Reads`): a text of the environment that
stands for no limit is an error before any argument, then the first argument that is refused is one.
Otherwise the limit is that of the last flag, else that of the environment, else 2000, and the
arguments without a dash are kept in their order. The arguments are read one by one from the left.
A text is read as a limit exactly if it stands for it.
-/
theorem options_decided (env : Option String) (args : List String) :
    (∀ r, Plan.options env args = r ↔ Reads env args r) ∧
    (∀ options : Options,
      options.applyArguments args = args.foldlM readArgument (options, [])) ∧
    ∀ text limit, readDepth text = .ok limit ↔ Stands text limit := by
  refine ⟨fun r => ⟨?_, Reads.options_eq⟩, fun options => applyArguments_eq_foldlM options args,
    fun text limit => readDepth_eq_ok_iff⟩
  rintro rfl
  obtain ⟨r, hr⟩ := exists_reads env args
  rwa [hr.options_eq]

/--
The environment is fine, the first argument is a file and the first flag lifts the limit. The second
flag is the first argument that is refused: it is reported with the blank in it, and the unknown
option behind it is not.
-/
theorem options_decided_second_flag :
    let args := ["main.em", "--max-depth=+00", "--max-depth= 1e3", "-v"]
    Plan.options (some " 64\n") args = .error (.badDepth " 1e3") := by
  intro args
  have henv : Stands " 64\n" (some 64) := readDepth_eq_ok_iff.mp (by decide +kernel)
  have hzero : Stands "+00" none := readDepth_eq_ok_iff.mp (by decide +kernel)
  have hbad : ¬IsDepth " 1e3" := fun ⟨limit, hlimit⟩ => by
    have hread : readDepth " 1e3" = .error (.badDepth " 1e3") := by decide +kernel
    rw [readDepth_of_stands hlimit] at hread
    cases hread
  have hsplit : args = ["main.em", "--max-depth=+00"] ++ ("--max-depth=" ++ " 1e3") :: ["-v"] := by
    decide +kernel
  refine ((options_decided (some " 64\n") args).1 _).mpr (.argument ?_ hsplit ?_ (.depth _ hbad))
  · rintro text h
    cases h
    exact ⟨_, henv⟩
  · intro a ha
    rcases List.mem_pair.mp ha with rfl | rfl
    · exact .inl (by decide +kernel)
    · exact .inr ⟨"+00", by decide +kernel, _, hzero⟩

end Ember.Options
