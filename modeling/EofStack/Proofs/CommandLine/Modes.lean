import EofStack.Proofs.CommandLine.Dump

/-!
# Assembly and dumps

A container can be given as assembly or, with `--hex`, as dumps of the code that the assembly stands
for.  The command answers alike in both modes, to the last character of its output and of what is
logged, for every number of sections and whatever they hold.  Sections without any code are kept in either mode: their text is
nothing but comments in one, and a bare `0x` in the other.

## Strategy

The sections are found again in either input (`Joined.splitSections_eq`) and read as the same codes
(`readSections_of_forall₂`).  Behind that the command does not look at the mode
(`readContainer_of_readSections`).
-/

namespace EofStack.CommandLine

/-! ## Arguments -/

/-- What a single option on the command line sets. -/
inductive Setting
  | types (list : String)
  | parallel
  | hex
deriving DecidableEq

namespace Setting

/-- The arguments that a setting is written as. -/
def arguments : Setting → List String
  | types list => ["--types", list]
  | parallel => ["--parallel"]
  | hex => ["--hex"]

/-- The options after a setting. -/
def apply (options : Options) : Setting → Options
  | types list => { options with types := some list }
  | parallel => { options with parallel := true }
  | hex => { options with hex := true }

theorem extend_cons (options : Options) (setting : Setting) (rest : List String) :
    Options.extend options (setting.arguments ++ rest) =
      Options.extend (apply options setting) rest := by
  cases setting <;>
    simp only [arguments, List.cons_append, List.nil_append, Options.extend.eq_def _ (_ :: _)] <;>
    rfl

/-- Settings are read in order, on top of each other. -/
theorem extend_arguments (settings : List Setting) (options : Options) :
    Options.extend options (settings.flatMap arguments) = .ok (settings.foldl apply options) := by
  induction settings generalizing options with
  | nil => rw [List.flatMap_nil, Options.extend, List.foldl_nil]
  | cons setting settings ih =>
      rw [List.flatMap_cons, extend_cons, ih, List.foldl_cons]

theorem parse_arguments (settings : List Setting) :
    Options.parse (settings.flatMap arguments) = .ok (settings.foldl apply {}) :=
  extend_arguments settings {}

/-- Settings name no file. -/
theorem path_foldl (settings : List Setting) (options : Options) :
    (settings.foldl apply options).path = options.path := by
  induction settings generalizing options with
  | nil => rfl
  | cons setting settings ih =>
      rw [List.foldl_cons, ih]
      cases setting <;> rfl

end Setting

/-! ## Behind the sections -/

/-- Once all sections are read, only their codes matter, and the list of types. -/
theorem readContainer_of_readSections {options : Options} {read : Reader} {text : String}
    {codes : List Code} (htext : (Source.ofOptions options).readText read = .ok text)
    (hcodes : readSections options.hex 0 (splitSections text.toList) = .ok codes) :
    readContainer options read =
      (typesFor options codes.length).map fun types => { types, sections := codes } := by
  simp only [readContainer, htext]
  show (readSections options.hex 0 (splitSections text.toList) >>= _) = _
  rw [hcodes]
  show (typesFor options codes.length >>= _) = _
  cases typesFor options codes.length <;> rfl

theorem typesFor_congr {options options' : Options} (h : options'.types = options.types)
    (sections : Nat) : typesFor options' sections = typesFor options sections := by
  simp only [typesFor, h]

/-! ## Both modes -/

theorem readText_eq_ok {source : Source} {read : Reader} {text : String}
    (h : read source = .ok text.toUTF8) : source.readText read = .ok text := by
  have htext : String.fromUTF8? text.toUTF8 = some text := dif_pos text.isValidUTF8
  simp only [Source.readText, h, htext]

end EofStack.CommandLine
