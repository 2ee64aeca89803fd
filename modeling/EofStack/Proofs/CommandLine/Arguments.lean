import EofStack.Proofs.CommandLine.Modes
import Mathlib.Data.List.Induction

/-!
# What arguments mean

A command line is understood if it is made of settings and of at most one path (`Understood`).  What
it asks for does not depend on the order then, but for the list of types, of which the last counts
(`optionsOf`).

Otherwise there is a first argument that cannot be understood behind the ones in front of it
(`Misused`): a `--types` that nothing follows, an option that does not exist, or a second path.
Whatever else is wrong behind that argument is not looked at.

The same word can be an option in one place and a value in another.  So what it means to put in an
option has to follow the arguments from the front (`AddsParallel`): right behind `--types` it would
be the list of types.
-/

namespace EofStack.CommandLine

/-! ## Arguments -/

/-- An argument together with its value, if it takes one. -/
inductive Argument
  | setting (value : Setting)
  | path (name : String) (hpath : isOption name = false)

namespace Argument

/-- What is written on the command line for an argument. -/
def written : Argument → List String
  | .setting value => value.arguments
  | .path name _ => [name]

def setting? : Argument → Option Setting
  | .setting value => some value
  | .path .. => none

def path? : Argument → Option String
  | .setting _ => none
  | .path name _ => some name

end Argument

/-- The list of types that a setting gives. -/
def Setting.list? : Setting → Option String
  | types list => some list
  | parallel | hex => none

/-- What arguments ask for together. -/
def optionsOf (arguments : List Argument) : Options :=
  let settings := arguments.filterMap Argument.setting?
  { types := (settings.filterMap Setting.list?).getLast?
    hex := decide (.hex ∈ settings)
    parallel := decide (.parallel ∈ settings)
    path := (arguments.filterMap Argument.path?).head? }

/-- The command line is made of settings and of at most one path, which ask for these options. -/
def Understood (written : List String) (options : Options) : Prop :=
  ∃ arguments : List Argument, arguments.flatMap Argument.written = written ∧
    (arguments.filterMap Argument.path?).length ≤ 1 ∧ optionsOf arguments = options

/-- The argument looks like an option, but there is none of that name. -/
def IsUnknown (argument : String) : Prop :=
  isOption argument = true ∧ argument ∉ ["--types", "--hex", "--parallel"]

/-- The first argument that cannot be understood, and why. -/
inductive Misused : List String → UsageError → Prop
  | missingTypes {front : List String} {options : Options} (hfront : Understood front options) :
      Misused (front ++ ["--types"]) .missingTypes
  | unknownOption {front rest : List String} {options : Options} {argument : String}
      (hfront : Understood front options) (hunknown : IsUnknown argument) :
      Misused (front ++ argument :: rest) (.unknownOption argument)
  | secondPath {front rest : List String} {options : Options} {path : String}
      (hfront : Understood front options) (hfirst : options.path ≠ none)
      (hpath : isOption path = false) : Misused (front ++ path :: rest) .secondPath

/-! ## One argument more -/

namespace Options

/-- The options with one argument more. -/
def set (options : Options) : Argument → Options
  | .setting value => Setting.apply options value
  | .path name _ => { options with path := some name }

/-- A path is no option. -/
theorem ne_of_isOption {path option : String} (hpath : isOption path = false)
    (hoption : isOption option = true) : path ≠ option := by
  rintro rfl
  rw [hpath] at hoption
  cases hoption

/-- A path is read as one, unless there is one already. -/
theorem extend_path {path : String} (hpath : isOption path = false) (options : Options)
    (rest : List String) :
    extend options (path :: rest) =
      if options.path.isSome then .error .secondPath
      else extend { options with path := some path } rest := by
  have hne : path ≠ "--types" ∧ path ≠ "--hex" ∧ path ≠ "--parallel" :=
    ⟨ne_of_isOption hpath (by decide), ne_of_isOption hpath (by decide),
      ne_of_isOption hpath (by decide)⟩
  rw [extend.eq_def]
  simp [hne, hpath]

theorem extend_unknown {argument : String} (h : IsUnknown argument) (options : Options)
    (rest : List String) :
    extend options (argument :: rest) = .error (.unknownOption argument) := by
  obtain ⟨hoption, hnone⟩ := h
  have hne : argument ≠ "--types" ∧ argument ≠ "--hex" ∧ argument ≠ "--parallel" := by
    simpa using hnone
  rw [extend.eq_def]
  simp [hne, hoption]

theorem extend_written {options : Options} {argument : Argument}
    (hfirst : argument.path? ≠ none → options.path = none) (rest : List String) :
    extend options (argument.written ++ rest) = extend (options.set argument) rest := by
  cases argument with
  | setting value => exact Setting.extend_cons options value rest
  | path name hpath =>
      have hnone := hfirst (Option.some_ne_none name)
      exact (extend_path hpath options rest).trans (if_neg (by simp [hnone]))

end Options

theorem optionsOf_concat {arguments : List Argument} {argument : Argument}
    (hfirst : argument.path? ≠ none → arguments.filterMap Argument.path? = []) :
    optionsOf (arguments ++ [argument]) = (optionsOf arguments).set argument := by
  cases argument with
  | path name hpath =>
      have hnil := hfirst (Option.some_ne_none name)
      have hsettings : [Argument.path name hpath].filterMap Argument.setting? = [] := rfl
      simp [optionsOf, Options.set, Argument.path?, hnil, hsettings]
  | setting value =>
      cases value <;>
        simp [optionsOf, Options.set, Setting.apply, Setting.list?, Argument.setting?,
          Argument.path?]

namespace Understood

variable {front rest : List String} {options : Options}

theorem nil : Understood [] {} :=
  ⟨[], rfl, Nat.zero_le 1, rfl⟩

/-- What is understood stays so with one argument more, unless it is a second path. -/
theorem concat (h : Understood front options) (argument : Argument)
    (hfirst : argument.path? ≠ none → options.path = none) :
    Understood (front ++ argument.written) (options.set argument) := by
  obtain ⟨arguments, rfl, hone, rfl⟩ := h
  have hnil : argument.path? ≠ none → arguments.filterMap Argument.path? = [] :=
    fun hpath => List.head?_eq_none_iff.mp (hfirst hpath)
  refine ⟨arguments ++ [argument], by simp, ?_, optionsOf_concat hnil⟩
  cases hpath : argument.path? with
  | none => simpa [hpath] using hone
  | some path => simp [hpath, hnil (by simp [hpath])]

/-- What is understood decides how the rest is read. -/
theorem extend_append (h : Understood front options) (rest : List String) :
    Options.extend {} (front ++ rest) = Options.extend options rest := by
  obtain ⟨arguments, rfl, hone, rfl⟩ := h
  induction arguments using List.reverseRecOn generalizing rest with
  | nil => rfl
  | append_singleton arguments argument ih =>
      rw [List.filterMap_append, List.length_append] at hone
      have hnil : argument.path? ≠ none → arguments.filterMap Argument.path? = [] := by
        intro hpath
        obtain ⟨path, hpath⟩ := Option.ne_none_iff_exists'.mp hpath
        rw [List.filterMap_cons_some hpath, List.filterMap_nil, List.length_singleton] at hone
        exact List.length_eq_zero_iff.mp (by omega)
      rw [List.flatMap_append, List.append_assoc, ih _ (by omega), List.flatMap_singleton,
        optionsOf_concat hnil]
      apply Options.extend_written
      intro hpath
      exact List.head?_eq_none_iff.mpr (hnil hpath)

theorem parse_eq (h : Understood front options) : Options.parse front = .ok options := by
  have hextend := h.extend_append []
  rwa [List.append_nil, Options.extend] at hextend

end Understood

theorem Misused.parse_eq {written : List String} {e : UsageError} (h : Misused written e) :
    Options.parse written = .error e := by
  rw [Options.parse]
  cases h with
  | missingTypes hfront => rw [hfront.extend_append, Options.extend.eq_def]; rfl
  | unknownOption hfront hunknown => rw [hfront.extend_append, Options.extend_unknown hunknown]
  | secondPath hfront hfirst hpath =>
      rw [hfront.extend_append, Options.extend_path hpath,
        if_pos (Option.isSome_iff_ne_none.mpr hfirst)]

/-! ## Every command line -/

theorem Understood.setting {front : List String} {options : Options} (h : Understood front options)
    (value : Setting) : Understood (front ++ value.arguments) (value.apply options) :=
  h.concat (.setting value) fun hpath => absurd rfl hpath

theorem understood_or_misused_append {front : List String} {options : Options}
    (h : Understood front options) (rest : List String) :
    (∃ options, Understood (front ++ rest) options) ∨ ∃ e, Misused (front ++ rest) e := by
  -- each way to read the next argument either adds one to the front or is a misuse
  induction options, rest using Options.extend.induct generalizing front with
  | case1 =>
      rw [List.append_nil]
      exact Or.inl ⟨_, h⟩
  | case2 => exact Or.inr ⟨_, .missingTypes h⟩
  | case3 options types rest ih =>
      have hrest := ih (h.setting (.types types))
      rwa [List.append_assoc] at hrest
  | case4 options rest _ ih =>
      have hrest := ih (h.setting .hex)
      rwa [List.append_assoc] at hrest
  | case5 options rest _ _ ih =>
      have hrest := ih (h.setting .parallel)
      rwa [List.append_assoc] at hrest
  | case6 options argument rest htypes hhex hparallel hoption =>
      exact Or.inr ⟨_, .unknownOption h ⟨hoption, by simp [htypes, hhex, hparallel]⟩⟩
  | case7 options path rest _ _ _ hpath hfirst =>
      have hpath := Bool.eq_false_iff.mpr hpath
      exact Or.inr ⟨_, .secondPath h (Option.isSome_iff_ne_none.mp hfirst) hpath⟩
  | case8 options path rest _ _ _ hpath hfirst ih =>
      have hfirst : options.path = none := by simpa using hfirst
      have hpath := Bool.eq_false_iff.mpr hpath
      have hrest := ih (h.concat (.path path hpath) fun _ => hfirst)
      rwa [List.append_assoc] at hrest

theorem understood_or_misused (written : List String) :
    (∃ options, Understood written options) ∨ ∃ e, Misused written e :=
  understood_or_misused_append .nil written

theorem parse_eq_ok_iff {written : List String} {options : Options} :
    Options.parse written = .ok options ↔ Understood written options :=
  eq_ok_iff_of_described (fun _ => Understood.parse_eq) (fun _ => Misused.parse_eq)
    (understood_or_misused written)

theorem parse_eq_error_iff {written : List String} {e : UsageError} :
    Options.parse written = .error e ↔ Misused written e :=
  eq_error_iff_of_described (fun _ => Understood.parse_eq) (fun _ => Misused.parse_eq)
    (understood_or_misused written)

/-! ## One option more -/

/-- The option `--parallel` is put in somewhere, but not as the value of `--types`. -/
inductive AddsParallel : List String → List String → Prop
  | here (written : List String) : AddsParallel written ("--parallel" :: written)
  | types {written written' : List String} (list : String) (h : AddsParallel written written') :
      AddsParallel ("--types" :: list :: written) ("--types" :: list :: written')
  | other {argument : String} {written written' : List String} (hne : argument ≠ "--types")
      (h : AddsParallel written written') :
      AddsParallel (argument :: written) (argument :: written')

namespace Options

/-- The options with functions verified concurrently. -/
def inParallel (options : Options) : Options :=
  { options with parallel := true }

theorem apply_inParallel (options : Options) (value : Setting) :
    value.apply options.inParallel = (value.apply options).inParallel := by
  cases value <;> rfl

/-- Whether functions are verified concurrently does not change how arguments are read. -/
theorem extend_inParallel (options : Options) (written : List String) :
    extend options.inParallel written = (extend options written).map inParallel := by
  have hsetting : ∀ (options : Options) (value : Setting) (rest : List String),
      extend (value.apply options).inParallel rest =
          (extend (value.apply options) rest).map inParallel →
        extend options.inParallel (value.arguments ++ rest) =
          (extend options (value.arguments ++ rest)).map inParallel := by
    intro options value rest ih
    rw [Setting.extend_cons, Setting.extend_cons, apply_inParallel, ih]
  induction options, written using extend.induct with
  | case1 | case2 => rfl
  | case3 options types rest ih => exact hsetting options (.types types) rest ih
  | case4 options rest _ ih => exact hsetting options .hex rest ih
  | case5 options rest _ _ ih => exact hsetting options .parallel rest ih
  | case6 options argument rest htypes hhex hparallel hoption =>
      have hunknown : IsUnknown argument := ⟨hoption, by simp [htypes, hhex, hparallel]⟩
      rw [extend_unknown hunknown, extend_unknown hunknown]
      rfl
  | case7 options path rest _ _ _ hpath hfirst =>
      have hpath := Bool.eq_false_iff.mpr hpath
      rw [extend_path hpath, extend_path hpath, if_pos hfirst]
      exact if_pos hfirst
  | case8 options path rest _ _ _ hpath hfirst ih =>
      have hpath := Bool.eq_false_iff.mpr hpath
      rw [extend_path hpath, extend_path hpath, if_neg hfirst, ← ih]
      exact if_neg hfirst

end Options

namespace AddsParallel

variable {written written' : List String}

theorem extend_eq (h : AddsParallel written written') (options : Options) :
    Options.extend options written' = (Options.extend options written).map Options.inParallel := by
  induction h generalizing options with
  | here written =>
      rw [← Options.extend_inParallel]
      exact Setting.extend_cons options .parallel written
  | types list _ ih => exact ih _
  | @other argument written written' hne _ ih =>
      rw [Options.extend.eq_def _ (argument :: written),
        Options.extend.eq_def _ (argument :: written')]
      simp only [if_neg hne, ih]
      split_ifs <;> rfl

theorem asksForHelp_eq (h : AddsParallel written written') :
    asksForHelp written' = asksForHelp written := by
  unfold asksForHelp
  induction h with
  | here written => rfl
  | types list _ ih => simp only [List.any_cons, ih]
  | other _ _ ih => simp only [List.any_cons, ih]

end AddsParallel

end EofStack.CommandLine
