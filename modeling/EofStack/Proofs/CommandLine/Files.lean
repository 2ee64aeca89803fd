import EofStack.CommandLine.Directory
import EofStack.Proofs.CommandLine.Outcome
import EofStack.Proofs.Text

/-!
# Containers in files

A path leads to a file of the working directory if it stays there up to its last step, which is the
name of the file (`read_file_eq_ok_iff`); there is no other way to a file.  A container that stands
in one is answered as the same container on standard input (`respond_file`, `respond_fileName`).

## Strategy

One step is described by `Leads`.  A run of steps that has left the working directory finds no file
any more, and one that has come to a file cannot go on, so the step into the file is the last one and
all in front of it stay.
-/

namespace EofStack.CommandLine

namespace Directory

variable {directory : Directory} {place place' : Place} {name : String} {content : ByteArray}

/-! ## One step -/

/-- The step stays where it is. -/
def Stays (name : String) : Prop :=
  name = "" ∨ name = "."

instance (name : String) : Decidable (Stays name) :=
  inferInstanceAs (Decidable (name = "" ∨ name = "."))

/-- A file can be called by that name. -/
structure IsFileName (name : String) : Prop where
  goes : ¬ Stays name
  within : name ≠ ".."
  short : name.utf8ByteSize ≤ maxNameBytes

/-- The working directory holds a file of that name. -/
structure Holds (directory : Directory) (name : String) (content : ByteArray) : Prop extends
    IsFileName name where
  lookup : directory.files.lookup name = some content

/-- Steps can be taken from there. -/
def IsOpen (place : Place) : Prop :=
  ∀ content, place ≠ .file content

theorem isOpen_workingDirectory : IsOpen .workingDirectory :=
  fun _ => nofun

/-- A step from one place to another. -/
inductive Leads (directory : Directory) : Place → String → Place → Prop
  | stays {place : Place} {name : String} (hplace : IsOpen place) (hname : Stays name) :
      Leads directory place name place
  | leaves {place : Place} (hplace : IsOpen place) : Leads directory place ".." .elsewhere
  | enters {name : String} {content : ByteArray} (hholds : directory.Holds name content) :
      Leads directory .workingDirectory name (.file content)

theorem step_of_isOpen (hplace : IsOpen place) (name : String) :
    directory.step place name =
      if Stays name then .ok place
      else if name = ".." then .ok .elsewhere
      else directory.find place name := by
  cases place with
  | file content => exact absurd rfl (hplace content)
  | workingDirectory | elsewhere => rfl

theorem find_eq_ok_iff :
    directory.find place name = .ok place' ↔
      place = .workingDirectory ∧ name.utf8ByteSize ≤ maxNameBytes ∧
        ∃ content, directory.files.lookup name = some content ∧ place' = .file content := by
  unfold find
  split
  · next hlong => exact iff_of_false nofun fun h => absurd h.2.1 (Nat.not_le.mpr hlong)
  · next hshort =>
    cases place with
    | workingDirectory =>
        cases directory.files.lookup name <;> simp [Nat.le_of_not_lt hshort, eq_comm]
    | elsewhere | file => exact iff_of_false nofun nofun

theorem step_eq_ok_iff :
    directory.step place name = .ok place' ↔ directory.Leads place name place' := by
  constructor
  · intro h
    have hplace : IsOpen place := by
      rintro content rfl
      cases h
    rw [step_of_isOpen hplace] at h
    split at h
    next hstays =>
      cases h
      exact .stays hplace hstays
    next hgoes =>
    split at h
    next hup =>
      cases h
      exact hup ▸ .leaves hplace
    next hwithin =>
    obtain ⟨rfl, hshort, content, hlookup, rfl⟩ := find_eq_ok_iff.mp h
    exact .enters ⟨⟨hgoes, hwithin, hshort⟩, hlookup⟩
  · intro h
    cases h with
    | stays hplace hname => rw [step_of_isOpen hplace, if_pos hname]
    | leaves hplace =>
        rw [step_of_isOpen hplace, if_neg (by decide), if_pos rfl]
    | enters hholds =>
        rw [step_of_isOpen isOpen_workingDirectory, if_neg hholds.goes, if_neg hholds.within, find_eq_ok_iff]
        exact ⟨rfl, hholds.short, _, hholds.lookup, rfl⟩

/-! ## Many steps -/

theorem foldlM_step_cons {steps : List String} :
    (name :: steps).foldlM directory.step place = .ok place' ↔
      ∃ next, directory.Leads place name next ∧ steps.foldlM directory.step next = .ok place' := by
  rw [List.foldlM_cons]
  constructor
  · intro h
    cases hstep : directory.step place name with
    | error e =>
        rw [hstep] at h
        cases h
    | ok next =>
        rw [hstep] at h
        exact ⟨next, step_eq_ok_iff.mp hstep, h⟩
  · rintro ⟨next, hleads, hrest⟩
    rw [step_eq_ok_iff.mpr hleads]
    exact hrest

/-- There is no way back into the working directory. -/
theorem eq_elsewhere_of_foldlM {steps : List String}
    (h : steps.foldlM directory.step .elsewhere = .ok place) : place = .elsewhere := by
  induction steps with
  | nil =>
      cases h
      rfl
  | cons name steps ih =>
      obtain ⟨next, hleads, hrest⟩ := foldlM_step_cons.mp h
      cases hleads with
      | stays | leaves => exact ih hrest

/-- Nothing follows the name of a file. -/
theorem eq_nil_of_foldlM {steps : List String}
    (h : steps.foldlM directory.step (.file content) = .ok place) :
    steps = [] ∧ place = .file content := by
  cases steps with
  | nil =>
      cases h
      exact ⟨rfl, rfl⟩
  | cons name steps =>
      obtain ⟨next, hleads, -⟩ := foldlM_step_cons.mp h
      cases hleads with
      | stays hplace | leaves hplace => exact absurd rfl (hplace content)

/-- Steps lead to a file if they stay in the working directory and the last one is its name. -/
theorem foldlM_step_eq_file_iff {steps : List String} :
    steps.foldlM directory.step .workingDirectory = .ok (.file content) ↔
      ∃ stays name, steps = stays ++ [name] ∧ (∀ step ∈ stays, Stays step) ∧
        directory.Holds name content := by
  constructor
  · intro h
    induction steps with
    | nil => cases h
    | cons name steps ih =>
        obtain ⟨next, hleads, hrest⟩ := foldlM_step_cons.mp h
        cases hleads with
        | stays _ hname =>
            obtain ⟨stays, last, rfl, hstays, hholds⟩ := ih hrest
            exact ⟨name :: stays, last, rfl, List.forall_mem_cons.mpr ⟨hname, hstays⟩, hholds⟩
        | leaves => cases eq_elsewhere_of_foldlM hrest
        | enters hholds =>
            obtain ⟨rfl, heq⟩ := eq_nil_of_foldlM hrest
            cases heq
            exact ⟨[], name, rfl, List.forall_mem_nil _, hholds⟩
  · rintro ⟨stays, name, rfl, hstays, hholds⟩
    induction stays with
    | nil => exact foldlM_step_cons.mpr ⟨_, .enters hholds, rfl⟩
    | cons step stays ih =>
        rw [List.forall_mem_cons] at hstays
        exact foldlM_step_cons.mpr ⟨_, .stays isOpen_workingDirectory hstays.1, ih hstays.2⟩

/-! ## Reading -/

variable {path : String}

theorem read_of_resolve (h : directory.resolve path = .ok place) :
    directory.read (.file path) =
      match place with
      | .file content => .ok content
      | _ => .error .isDirectory := by
  simp only [read, h]
  cases place <;> rfl

theorem read_eq_ok_iff_resolve :
    directory.read (.file path) = .ok content ↔
      directory.resolve path = .ok (.file content) := by
  constructor
  · intro h
    cases hresolve : directory.resolve path with
    | error e =>
        simp only [read, hresolve] at h
        cases h
    | ok place =>
        rw [read_of_resolve hresolve] at h
        cases place with
        | workingDirectory | elsewhere => cases h
        | file content' =>
            cases h
            rfl
  · intro h
    rw [read_of_resolve h]

/-- What is read is a file of the working directory, and the path is a way to it. -/
theorem read_file_eq_ok_iff :
    directory.read (.file path) = .ok content ↔
      path.utf8ByteSize ≤ maxPathBytes ∧ path.toList.head? ≠ some '/' ∧
        ∃ stays name, pathSteps path = stays ++ [name] ∧ (∀ step ∈ stays, Stays step) ∧
          directory.Holds name content := by
  rw [read_eq_ok_iff_resolve, ← foldlM_step_eq_file_iff, resolve]
  split
  next hempty =>
    subst hempty
    refine iff_of_false nofun fun h => ?_
    cases h.2.2
  next =>
  split
  next hlong => exact iff_of_false nofun fun h => absurd h.1 (Nat.not_le.mpr hlong)
  next hshort =>
  dsimp only
  split
  next hroot =>
    refine iff_of_false (fun h => ?_) fun h => h.2.1 hroot
    cases eq_elsewhere_of_foldlM h
  next hroot => exact (and_iff_right (Nat.le_of_not_lt hshort)).trans (and_iff_right hroot) |>.symm

/-! ### Names -/

theorem pathSteps_of_not_mem (h : '/' ∉ name.toList) : pathSteps name = [name] := by
  have hfields : Text.fields (· = '/') name.toList = [name.toList] :=
    Text.fields_of_forall fun c hc => decide_eq_false fun heq => h (heq ▸ hc)
  rw [pathSteps, hfields, List.map_singleton, String.ofList_toList]

theorem head?_ne_of_not_mem (h : '/' ∉ name.toList) : name.toList.head? ≠ some '/' :=
  fun hhead => h (List.mem_of_mem_head? hhead)

theorem IsFileName.utf8ByteSize_le (h : IsFileName name) : name.utf8ByteSize ≤ maxPathBytes :=
  h.short.trans (by decide)

/-- The name of a file is a path to it. -/
theorem Holds.read_eq (h : directory.Holds name content) (hslash : '/' ∉ name.toList) :
    directory.read (.file name) = .ok content :=
  read_file_eq_ok_iff.mpr ⟨h.utf8ByteSize_le, head?_ne_of_not_mem hslash, [], name,
    pathSteps_of_not_mem hslash, List.forall_mem_nil _, h⟩

/-- A name that no file has leads nowhere. -/
theorem read_of_lookup_eq_none (hname : IsFileName name) (hslash : '/' ∉ name.toList)
    (hnone : directory.files.lookup name = none) :
    directory.read (.file name) = .error .notFound := by
  have hstep : directory.step .workingDirectory name = .error .notFound := by
    rw [step_of_isOpen isOpen_workingDirectory, if_neg hname.goes, if_neg hname.within, find,
      if_neg (Nat.not_lt.mpr hname.short)]
    simp only [hnone]
  have hresolve : directory.resolve name = .error .notFound := by
    have hempty : name ≠ "" := fun heq => hname.goes (Or.inl heq)
    rw [resolve, if_neg hempty, if_neg (Nat.not_lt.mpr hname.utf8ByteSize_le),
      if_neg (head?_ne_of_not_mem hslash), pathSteps_of_not_mem hslash, List.foldlM_cons, hstep]
    rfl
  simp only [read, hresolve]

end Directory

/-! ## The command -/

variable {directory : Directory} {arguments arguments' : List String} {options : Options}
  {path : String}

/-- Only the text that is found matters, not where it was found. -/
theorem readContainer_congr {options' : Options} {read read' : Reader} {text : String}
    (htext : (Source.ofOptions options).readText read = .ok text)
    (htext' : (Source.ofOptions options').readText read' = .ok text)
    (hhex : options'.hex = options.hex) (htypes : options'.types = options.types) :
    readContainer options' read' = readContainer options read := by
  simp only [readContainer, htext, htext', hhex, typesFor_congr htypes]

/-- **Files and standard input are answered alike.**  The command that is told to read a container
from a file answers as it does without the path, if the container is given on standard input. -/
theorem respond_file {text : String} (hhelp : asksForHelp arguments = asksForHelp arguments')
    (hunderstood : Understood arguments options)
    (hunderstood' : Understood arguments' { options with path := none })
    (hsource : Source.ofOptions options = .file path)
    (hread : directory.read (.file path) = .ok text.toUTF8) (schedules : Schedules) :
    respond arguments directory.read schedules =
      respond arguments' { directory with standardInput := text.toUTF8 }.read schedules := by
  have htext : (Source.ofOptions options).readText directory.read = .ok text :=
    hsource ▸ readText_eq_ok hread
  have htext' : (Source.ofOptions { options with path := none }).readText
      { directory with standardInput := text.toUTF8 }.read = .ok text := readText_eq_ok rfl
  have hcontainer := readContainer_congr htext htext' rfl rfl
  simp only [respond, hhelp, hunderstood.parse_eq, hunderstood'.parse_eq, hcontainer]

theorem withoutPath_eq (h : options.path = none) : { options with path := none } = options := by
  cases options
  cases h
  rfl

/-- So it is if the name of the file is put behind the settings. -/
theorem respond_fileName {settings : List Setting} {name text : String}
    (hpath : isOption name = false) (hhyphen : name ≠ "-") (hslash : '/' ∉ name.toList)
    (hholds : directory.Holds name text.toUTF8) (schedules : Schedules) :
    respond (settings.flatMap Setting.arguments ++ [name]) directory.read schedules =
      respond (settings.flatMap Setting.arguments)
        { directory with standardInput := text.toUTF8 }.read schedules := by
  have hfront : Understood (settings.flatMap Setting.arguments) (settings.foldl Setting.apply {}) :=
    parse_eq_ok_iff.mp (Setting.parse_arguments settings)
  have hnone : (settings.foldl Setting.apply {}).path = none := Setting.path_foldl settings {}
  have hunderstood := hfront.concat (.path name hpath) fun _ => hnone
  have hunderstood' : Understood (settings.flatMap Setting.arguments)
      { settings.foldl Setting.apply {} with path := none } :=
    (withoutPath_eq hnone).symm ▸ hfront
  have hhelp : asksForHelp (settings.flatMap Setting.arguments ++ [name]) =
      asksForHelp (settings.flatMap Setting.arguments) := by
    have hne : name ≠ "--help" ∧ name ≠ "-h" :=
      ⟨Options.ne_of_isOption hpath (by decide), Options.ne_of_isOption hpath (by decide)⟩
    simp [asksForHelp, hne]
  exact respond_file hhelp hunderstood hunderstood' (if_neg hhyphen) (hholds.read_eq hslash)
    schedules

/-- The command that is told to read a file that does not exist says so. -/
theorem respond_missing (hhelp : ¬ AsksForHelp arguments)
    (hunderstood : Understood arguments options) (hsource : Source.ofOptions options = .file path)
    (hname : Directory.IsFileName path) (hslash : '/' ∉ path.toList)
    (hnone : directory.files.lookup path = none) (schedules : Schedules) :
    respond arguments directory.read schedules =
      (Failure.input (.file path) .notFound).response [] := by
  have hread : directory.read (Source.ofOptions options) = .error .notFound :=
    hsource ▸ Directory.read_of_lookup_eq_none hname hslash hnone
  have hunread : Unread options directory.read (.input (.file path) .notFound) :=
    hsource ▸ .unreadable hread
  exact respond_of_unread hhelp hunderstood hunread

end EofStack.CommandLine
