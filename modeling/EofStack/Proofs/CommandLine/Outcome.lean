import EofStack.Opcode.Byte
import EofStack.Proofs.CommandLine.Reading
import EofStack.Proofs.Container.Log
import EofStack.Proofs.Stack.Soundness

/-!
# What a run comes to

Every run has one of five answers (`Answers`): help, a usage error, a failure to read the container,
a rejected container or the heights of an accepted one.  A run that does not accept prints nothing
but the reason, and of several reasons it is the first in a fixed order.

The order is that of the steps: the arguments, the input, the sections from the first on, the list
of types, the container.  `Verified` and `Fails` describe what the steps behind the arguments come
to.

Only the log of a rejected container depends on how the container is verified.  With `--parallel`,
which is put in as an option of its own (`AddsParallel`), more functions may be logged and in any
order, but nothing else changes (`LogsMore`).  Where the word stands in the place of a value, it is
one (`respond_parallel_differs`).
-/

namespace EofStack.CommandLine

variable {options : Options} {read : Reader} {text : String} {container : Container}
  {failure : Failure} {schedules : Schedules}

/-! ## Containers -/

/-- The text is that of a container that is accepted. -/
inductive Verified (options : Options) (read : Reader) (text : String) : Report → Prop
  | intro {container : Container} {report : Report} (hreads : Reads options read text container)
      (hverify : container.verifier.verify container.sections = .ok report) :
      Verified options read text report

/-- The first step that fails. -/
inductive Fails (options : Options) (read : Reader) : Failure → Prop
  | unread {failure : Failure} (hunread : Unread options read failure) :
      Fails options read failure
  | rejected {text : String} {container : Container} {e : ContainerError}
      (hreads : Reads options read text container)
      (herror : container.verifier.verify container.sections = .error e) :
      Fails options read (.rejected e)

namespace Container

/-- The verdict does not depend on how the functions are verified. -/
theorem verdict_verify (container : Container) (parallel : Bool) (schedules : Schedules) :
    (container.verify parallel schedules).verdict =
      container.verifier.verify container.sections := by
  cases parallel with
  | false => rfl
  | true => exact Verifier.verifyCompleting_eq_verify _ _

theorem logs_verify (container : Container) (parallel : Bool) (schedules : Schedules) :
    container.verifier.Logs container.sections parallel
      (container.verify parallel schedules).warnings := by
  cases parallel with
  | false =>
      have hwarnings := container.verifier.warnings_verifyInTurn container.sections
      exact hwarnings ▸ .inTurn
  | true =>
      exact .atOnce (Verifier.nodup_warnings_verifyCompleting _) fun _ =>
        Verifier.mem_warnings_verifyCompleting _

/-- Whatever can be logged is logged by a run. -/
theorem exists_verify {parallel : Bool} {warnings : List Warning}
    (h : container.verifier.Logs container.sections parallel warnings) :
    ∃ schedules, (container.verify parallel schedules).warnings = warnings := by
  cases h with
  | inTurn => exact ⟨.inOrder, container.verifier.warnings_verifyInTurn container.sections⟩
  | atOnce hnodup hmem =>
      obtain ⟨schedule, hwarnings⟩ := Verifier.exists_schedule hnodup hmem
      refine ⟨Function.update Schedules.inOrder container.sections.length schedule, ?_⟩
      rw [verify, if_pos rfl, Function.update_self, hwarnings]

end Container

theorem Reads.unique {text' : String} {container' : Container}
    (h : Reads options read text container) (h' : Reads options read text' container') :
    container = container' :=
  Except.ok.inj (h.readContainer_eq.symm.trans h'.readContainer_eq)

theorem Reads.not_unread (h : Reads options read text container) :
    ¬ Unread options read failure := by
  intro hunread
  cases h.readContainer_eq.symm.trans hunread.readContainer_eq

theorem Verified.not_fails {report : Report} (h : Verified options read text report) :
    ¬ Fails options read failure := by
  obtain ⟨hreads, hverify⟩ := h
  rintro (hunread | ⟨hreads', herror⟩)
  · exact hreads.not_unread hunread
  · obtain rfl := hreads.unique hreads'
    cases hverify.symm.trans herror

/-- An accepted container has a height for each of its sections. -/
theorem Verified.length_heights {report : Report} (h : Verified options read text report) :
    report.heights.length = (splitSections text.toList).length := by
  obtain ⟨hreads, hverify⟩ := h
  cases Verifier.verify_eq_iff.mp hverify with
  | accepted _ hlength _ => rw [hlength, hreads.decodes.length_eq]

/-! ## Responses -/

/-- Help is asked for wherever the request stands. -/
def AsksForHelp (arguments : List String) : Prop :=
  "--help" ∈ arguments ∨ "-h" ∈ arguments

instance (arguments : List String) : Decidable (AsksForHelp arguments) :=
  inferInstanceAs (Decidable ("--help" ∈ arguments ∨ "-h" ∈ arguments))

/-- The line that is printed for a function. -/
def heightLine (id height : Nat) : List Char :=
  "function ".toList ++ Nat.toDigits 10 id ++ ": max stack height ".toList ++ Nat.toDigits 10 height

/-- The lines that are printed, each ended. -/
def printed (heights : List Nat) : String :=
  String.ofList ((heights.mapIdx heightLine).flatMap (· ++ ['\n']))

/-- The answers of the command. -/
inductive Answers (arguments : List String) (read : Reader) : Response → Prop
  | help (hhelp : AsksForHelp arguments) : Answers arguments read ⟨0, "", usage ++ "\n", []⟩
  | misused {e : UsageError} (hhelp : ¬ AsksForHelp arguments) (hmisused : Misused arguments e) :
      Answers arguments read ⟨2, "", "Error: " ++ e.message ++ "\n\n" ++ usage ++ "\n", []⟩
  | unread {options : Options} {failure : Failure} (hhelp : ¬ AsksForHelp arguments)
      (hunderstood : Understood arguments options) (hunread : Unread options read failure) :
      Answers arguments read ⟨1, "", "Error: " ++ failure.message ++ "\n", []⟩
  | rejected {options : Options} {text : String} {container : Container} {e : ContainerError}
      {warnings : List Warning} (hhelp : ¬ AsksForHelp arguments)
      (hunderstood : Understood arguments options) (hreads : Reads options read text container)
      (herror : container.verifier.verify container.sections = .error e)
      (hlogs : container.verifier.Logs container.sections options.parallel warnings) :
      Answers arguments read
        ⟨1, "", "Error: " ++ (Failure.rejected e).message ++ "\n", warnings⟩
  | accepted {options : Options} {text : String} {report : Report}
      (hhelp : ¬ AsksForHelp arguments) (hunderstood : Understood arguments options)
      (hverified : Verified options read text report) :
      Answers arguments read ⟨0, printed report.heights, "", []⟩

variable {arguments : List String} {response : Response}

theorem asksForHelp_eq_true_iff : asksForHelp arguments = true ↔ AsksForHelp arguments := by
  simp only [asksForHelp, List.any_eq_true, Bool.or_eq_true, decide_eq_true_eq, AsksForHelp]
  constructor
  · rintro ⟨argument, hmem, rfl | rfl⟩
    · exact Or.inl hmem
    · exact Or.inr hmem
  · rintro (hmem | hmem)
    · exact ⟨_, hmem, Or.inl rfl⟩
    · exact ⟨_, hmem, Or.inr rfl⟩

theorem reportText_eq (report : Report) : reportText report = printed report.heights := by
  rw [← String.toList_inj, reportText, printed, String.toList_join, String.toList_ofList,
    List.mapIdx_eq_zipIdx_map, List.mapIdx_eq_zipIdx_map, List.flatMap_map, List.flatMap_map]
  refine List.flatMap_congr fun (height, id) _ => ?_
  show ("function " ++ toString id ++ ": max stack height " ++ toString height ++ "\n").toList = _
  simp only [String.toList_append, Nat.toString_eq_repr, Nat.toList_repr]
  rfl

theorem not_mem_heightLine {c : Char} (hc : c = '\n' ∨ c = '\r') (id height : Nat) :
    c ∉ heightLine id height := by
  have hdigits : ∀ n, c ∉ Nat.toDigits 10 n := by
    intro n hmem
    have hdigit : c.isDigit = true := Nat.isDigit_of_mem_toDigits (by decide) (by decide) hmem
    rcases hc with rfl | rfl <;> exact absurd hdigit (by decide)
  have hwords : c ∉ "function ".toList ∧ c ∉ ": max stack height ".toList := by
    rcases hc with rfl | rfl <;> decide
  unfold heightLine
  simp only [List.mem_append, hdigits, hwords, or_self, not_false_eq_true]

/-- The lines of the output are those of the functions. -/
theorem lines_printed (heights : List Nat) :
    Text.lines (printed heights).toList = heights.mapIdx heightLine := by
  rw [printed, String.toList_ofList]
  apply Text.lines_flatMap
  intro line hline
  obtain ⟨id, hid, rfl⟩ := List.mem_mapIdx.mp hline
  exact ⟨not_mem_heightLine (Or.inl rfl) _ _, not_mem_heightLine (Or.inr rfl) _ _⟩

/-! ### Every run -/

theorem respond_of_help (h : AsksForHelp arguments) :
    respond arguments read schedules = ⟨0, "", usage ++ "\n", []⟩ := by
  rw [respond, if_pos (asksForHelp_eq_true_iff.mpr h)]

theorem respond_of_misused {e : UsageError} (hhelp : ¬ AsksForHelp arguments)
    (hmisused : Misused arguments e) :
    respond arguments read schedules =
      ⟨2, "", "Error: " ++ e.message ++ "\n\n" ++ usage ++ "\n", []⟩ := by
  rw [respond, if_neg (mt asksForHelp_eq_true_iff.mp hhelp), hmisused.parse_eq]

theorem respond_of_unread (hhelp : ¬ AsksForHelp arguments)
    (hunderstood : Understood arguments options) (hunread : Unread options read failure) :
    respond arguments read schedules = failure.response [] := by
  rw [respond, if_neg (mt asksForHelp_eq_true_iff.mp hhelp), hunderstood.parse_eq]
  simp only [hunread.readContainer_eq]

theorem respond_of_reads (hhelp : ¬ AsksForHelp arguments)
    (hunderstood : Understood arguments options) (hreads : Reads options read text container) :
    respond arguments read schedules =
      responseTo (container.verify options.parallel schedules) := by
  rw [respond, if_neg (mt asksForHelp_eq_true_iff.mp hhelp), hunderstood.parse_eq]
  simp only [hreads.readContainer_eq]

theorem responseTo_verify_of_error {parallel : Bool} {e : ContainerError}
    (h : container.verifier.verify container.sections = .error e) :
    responseTo (container.verify parallel schedules) =
      (Failure.rejected e).response (container.verify parallel schedules).warnings := by
  rw [responseTo, container.verdict_verify, h]

theorem responseTo_verify_of_ok {parallel : Bool} {report : Report}
    (h : container.verifier.verify container.sections = .ok report) :
    responseTo (container.verify parallel schedules) = ⟨0, printed report.heights, "", []⟩ := by
  rw [responseTo, container.verdict_verify, h]
  simp only [reportText_eq, (container.logs_verify parallel schedules).eq_nil h]

/-- A run gives one of the answers. -/
theorem answers_respond (arguments : List String) (read : Reader) (schedules : Schedules) :
    Answers arguments read (respond arguments read schedules) := by
  by_cases hhelp : AsksForHelp arguments
  · rw [respond_of_help hhelp]
    exact .help hhelp
  rcases understood_or_misused arguments with ⟨options, hunderstood⟩ | ⟨e, hmisused⟩
  case inr =>
    rw [respond_of_misused hhelp hmisused]
    exact .misused hhelp hmisused
  cases hread : readContainer options read with
  | error failure =>
      have hunread := readContainer_eq_error_iff.mp hread
      rw [respond_of_unread hhelp hunderstood hunread]
      exact .unread hhelp hunderstood hunread
  | ok container =>
  obtain ⟨text, hreads⟩ := readContainer_eq_ok_iff.mp hread
  rw [respond_of_reads hhelp hunderstood hreads]
  cases hverify : container.verifier.verify container.sections with
  | ok report =>
      rw [responseTo_verify_of_ok hverify]
      exact .accepted hhelp hunderstood (.intro hreads hverify)
  | error e =>
      rw [responseTo_verify_of_error hverify]
      exact .rejected hhelp hunderstood hreads hverify (container.logs_verify _ _)

/-- Each of the answers is given by a run. -/
theorem Answers.exists_respond (h : Answers arguments read response) :
    ∃ schedules, respond arguments read schedules = response := by
  cases h with
  | help hhelp => exact ⟨.inOrder, respond_of_help hhelp⟩
  | misused hhelp hmisused => exact ⟨.inOrder, respond_of_misused hhelp hmisused⟩
  | unread hhelp hunderstood hunread =>
      exact ⟨.inOrder, respond_of_unread hhelp hunderstood hunread⟩
  | rejected hhelp hunderstood hreads herror hlogs =>
      obtain ⟨schedules, rfl⟩ := Container.exists_verify hlogs
      refine ⟨schedules, ?_⟩
      rw [respond_of_reads hhelp hunderstood hreads, responseTo_verify_of_error herror]
      rfl
  | accepted hhelp hunderstood hverified =>
      obtain ⟨hreads, hverify⟩ := hverified
      refine ⟨.inOrder, ?_⟩
      rw [respond_of_reads hhelp hunderstood hreads, responseTo_verify_of_ok hverify]

/-! ## All or nothing -/

/-- The response stands for one outcome and never mixes two. -/
structure AllOrNothing (arguments : List String) (read : Reader) (response : Response) : Prop where
  help : AsksForHelp arguments → response.exitCode = 0 ∧ response.output = ""
  /-- Whatever the input is. -/
  misused : ¬ AsksForHelp arguments → (response.exitCode = 2 ↔ ∃ e, Misused arguments e)
  accepted : ∀ options, ¬ AsksForHelp arguments → Understood arguments options →
    (response.exitCode = 0 ↔ ∃ report text, Verified options read text report)
  failed : ∀ options, ¬ AsksForHelp arguments → Understood arguments options →
    (response.exitCode = 1 ↔ ∃ failure, Fails options read failure)
  nothing : response.exitCode ≠ 0 → response.output = ""
  /-- Nothing is logged of a container that is accepted, or not read. -/
  logged : response.warnings ≠ [] → response.exitCode = 1
  /-- There is one line for each section, in the order of the ids. -/
  all : ∀ options text report, ¬ AsksForHelp arguments → Understood arguments options →
    Verified options read text report →
      Text.lines response.output.toList = report.heights.mapIdx heightLine ∧
        report.heights.length = (splitSections text.toList).length

theorem Understood.unique {options' : Options} (h : Understood arguments options)
    (h' : Understood arguments options') : options = options' :=
  Except.ok.inj (h.parse_eq.symm.trans h'.parse_eq)

theorem Understood.not_misused (h : Understood arguments options) (e : UsageError) :
    ¬ Misused arguments e := by
  intro hmisused
  cases h.parse_eq.symm.trans hmisused.parse_eq

/-- A failure is answered with its text, whatever is logged. -/
theorem Fails.allOrNothing (hfails : Fails options read failure)
    (hhelp : ¬ AsksForHelp arguments) (hunderstood : Understood arguments options)
    (warnings : List Warning) : AllOrNothing arguments read (failure.response warnings) := by
  have hnone : ∀ text report, ¬ Verified options read text report :=
    fun _ _ hverified => hverified.not_fails hfails
  refine {
    help := fun hsome => absurd hsome hhelp
    misused := fun _ => iff_of_false (by simp [Failure.response]) (not_exists.mpr hunderstood.not_misused)
    accepted := fun options' _ hunderstood' => ?_
    failed := fun options' _ hunderstood' => ?_
    nothing := fun _ => rfl
    logged := fun _ => rfl
    all := fun options' text report _ hunderstood' hverified => ?_ } <;>
  obtain rfl := hunderstood.unique hunderstood'
  · exact iff_of_false Nat.one_ne_zero fun ⟨report, text, hverified⟩ =>
      hnone text report hverified
  · exact iff_of_true rfl ⟨_, hfails⟩
  · exact absurd hverified (hnone text report)

theorem Answers.allOrNothing (h : Answers arguments read response) :
    AllOrNothing arguments read response := by
  cases h with
  | help hhelp =>
      exact {
        help := fun _ => ⟨rfl, rfl⟩
        misused := fun hnone => absurd hhelp hnone
        accepted := fun _ hnone => absurd hhelp hnone
        failed := fun _ hnone => absurd hhelp hnone
        nothing := fun hcode => absurd rfl hcode
        logged := fun hlogged => absurd rfl hlogged
        all := fun _ _ _ hnone => absurd hhelp hnone }
  | misused hhelp hmisused =>
      exact {
        help := fun hsome => absurd hsome hhelp
        misused := fun _ => iff_of_true rfl ⟨_, hmisused⟩
        accepted := fun _ _ hunderstood => absurd hmisused (hunderstood.not_misused _)
        failed := fun _ _ hunderstood => absurd hmisused (hunderstood.not_misused _)
        nothing := fun _ => rfl
        logged := fun hlogged => absurd rfl hlogged
        all := fun _ _ _ _ hunderstood => absurd hmisused (hunderstood.not_misused _) }
  | unread hhelp hunderstood hunread =>
      exact (Fails.unread hunread).allOrNothing hhelp hunderstood []
  | rejected hhelp hunderstood hreads herror hlogs =>
      exact (Fails.rejected hreads herror).allOrNothing hhelp hunderstood _
  | accepted hhelp hunderstood hverified =>
      refine {
        help := fun hsome => absurd hsome hhelp
        misused := fun _ => iff_of_false (by simp) (not_exists.mpr hunderstood.not_misused)
        accepted := fun options' _ hunderstood' => ?_
        failed := fun options' _ hunderstood' => ?_
        nothing := fun hcode => absurd rfl hcode
        logged := fun hlogged => absurd rfl hlogged
        all := fun options' text report _ hunderstood' hverified' => ?_ } <;>
      obtain rfl := hunderstood.unique hunderstood'
      · exact iff_of_true rfl ⟨_, _, hverified⟩
      · exact iff_of_false (by simp) (not_exists.mpr fun _ => hverified.not_fails)
      · refine ⟨?_, hverified'.length_heights⟩
        obtain ⟨hreads, hverify⟩ := hverified
        obtain ⟨hreads', hverify'⟩ := hverified'
        obtain rfl := hreads.unique hreads'
        cases hverify.symm.trans hverify'
        exact lines_printed _

/-! ## One option more -/

/-- The responses differ at most in what is logged, and the second has all that the first has. -/
structure LogsMore (response response' : Response) : Prop where
  exitCode : response'.exitCode = response.exitCode
  output : response'.output = response.output
  errors : response'.errors = response.errors
  warnings : response.warnings ⊆ response'.warnings

theorem LogsMore.refl (response : Response) : LogsMore response response :=
  ⟨rfl, rfl, rfl, List.Subset.refl _⟩

/-- Verifying all functions at a time does not change the verdict, but may log more. -/
theorem logsMore_responseTo (container : Container) (parallel : Bool)
    (schedules schedules' : Schedules) :
    LogsMore (responseTo (container.verify parallel schedules))
      (responseTo (container.verify true schedules')) := by
  cases hverify : container.verifier.verify container.sections with
  | ok report =>
      rw [responseTo_verify_of_ok hverify, responseTo_verify_of_ok hverify]
      exact .refl _
  | error e =>
      rw [responseTo_verify_of_error hverify, responseTo_verify_of_error hverify]
      exact ⟨rfl, rfl, rfl,
        (container.logs_verify parallel schedules).subset (container.logs_verify true schedules')⟩

/-- **The command accepts a container as a whole or says why not**: what it says is described by
`Answers`, and each of these answers is given if the functions are completed in some order.  With
the option `--parallel` it says the same, but may log more. -/
theorem respond_answers (arguments : List String) (read : Reader) :
    (∀ response, (∃ schedules, respond arguments read schedules = response) ↔
      Answers arguments read response) ∧
    (∀ schedules, AllOrNothing arguments read (respond arguments read schedules)) ∧
    ∀ arguments', AddsParallel arguments arguments' → ∀ schedules schedules',
      LogsMore (respond arguments read schedules) (respond arguments' read schedules') := by
  refine ⟨fun response => ⟨?_, Answers.exists_respond⟩,
    fun schedules => (answers_respond _ _ _).allOrNothing, ?_⟩
  · rintro ⟨schedules, rfl⟩
    exact answers_respond _ _ _
  intro arguments' hadds schedules schedules'
  have hparse : Options.parse arguments' = (Options.parse arguments).map Options.inParallel :=
    hadds.extend_eq {}
  simp only [respond, hadds.asksForHelp_eq, hparse]
  split
  · exact .refl _
  cases Options.parse arguments with
  | error e => exact .refl _
  | ok options =>
      simp only [Except.map, readContainer_inParallel]
      cases readContainer options read with
      | error failure => exact .refl _
      | ok container => exact logsMore_responseTo container options.parallel schedules schedules'

/-- A reader that finds the same text wherever it looks. -/
def given (input : String) : Reader :=
  fun _ => .ok input.toUTF8

/-- An input with two sections that cannot be assembled. -/
def faultyInput : String :=
  "stop\n---\nbogus\n---\nworse\n"

/-- A function that pushes an item and pops it. -/
def pushPop : Container where
  types := #[.entry]
  sections := [#[Opcode.Byte.push1, 7, Opcode.Byte.pop, Opcode.Byte.stop]]

/-- Its source. -/
def pushPopInput : String :=
  "push1 7\npop\nstop\n"

theorem reads_pushPop : Reads { types := some "0:0" } (given pushPopInput) pushPopInput pushPop := by
  have hsections : splitSections pushPopInput.toList = [pushPopInput.toList] := by decide +kernel
  refine ⟨rfl, ?_, .given rfl (by decide +kernel)⟩
  rw [Decodes, hsections]
  exact .cons (by decide +kernel) .nil

theorem verify_pushPop : pushPop.verifier.verify pushPop.sections = .ok ⟨[1]⟩ := by
  have hvalidate : pushPop.verifier.validate 0
      #[Opcode.Byte.push1, 7, Opcode.Byte.pop, Opcode.Byte.stop] = .ok 1 :=
    Stack.Validator.validate_eq_ok_iff.mpr
      ⟨.entry, rfl, Stack.Body.result_of_runFor 20 (by decide +kernel), by decide⟩
  rw [Verifier.verify_of_checkLayout rfl]
  simp only [pushPop, Verifier.resultsFrom, Verifier.verifyFunction] at hvalidate ⊢
  rw [hvalidate]
  rfl

/-- Two functions, each of which adds two items that are not there. -/
def underflows : Container where
  types := #[.entry, .entry]
  sections := [#[Opcode.Byte.add, Opcode.Byte.stop], #[Opcode.Byte.add, Opcode.Byte.stop]]

/-- Their source. -/
def underflowsInput : String :=
  "add\nstop\n---\nadd\nstop\n"

/-- What is wrong with either of them. -/
def nothingToAdd : Stack.Violation :=
  .underflow 0 "add" 2 0

theorem reads_underflows (parallel : Bool) :
    Reads { types := some "0:0,0:0", parallel := parallel } (given underflowsInput)
      underflowsInput underflows := by
  have hsections : splitSections underflowsInput.toList =
      ["add\nstop\n".toList, "add\nstop\n".toList] := by decide +kernel
  have hcode : readSection false "add\nstop\n".toList =
      .ok #[Opcode.Byte.add, Opcode.Byte.stop] := by decide +kernel
  refine ⟨rfl, ?_, .given rfl (by decide +kernel)⟩
  rw [Decodes, hsections]
  exact .cons hcode (.cons hcode .nil)

theorem validate_underflows {id : Nat} {code : Code}
    (hcode : underflows.sections[id]? = some code) :
    underflows.verifier.validate id code = .error nothingToAdd := by
  have hresult : (Stack.Body.walk ⟨underflows.types, .entry,
      #[Opcode.Byte.add, Opcode.Byte.stop]⟩).result = .error nothingToAdd :=
    Stack.Body.result_of_runFor 20 (by decide +kernel)
  match id with
  | 0 | 1 =>
    cases hcode
    exact Stack.Validator.validate_eq_error_of_walk rfl hresult
  | _ + 2 => cases hcode

theorem wellLaidOut_underflows : underflows.verifier.WellLaidOut underflows.sections :=
  ⟨rfl, .entry, rfl, rfl, rfl⟩

theorem verify_underflows :
    underflows.verifier.verify underflows.sections = .error (.function 0 nothingToAdd) :=
  Verifier.verify_eq_iff.mpr <| .refused wellLaidOut_underflows rfl
    (.function (validate_underflows rfl)) fun id hid => absurd hid id.not_lt_zero

theorem rejects_underflows {warning : Warning} :
    underflows.verifier.Rejects underflows.sections warning ↔
      warning ∈ [⟨1, nothingToAdd⟩, ⟨0, nothingToAdd⟩] := by
  obtain ⟨id, violation⟩ := warning
  rw [List.mem_pair]
  constructor
  · rintro ⟨-, code, hcode, hvalidate⟩
    cases hvalidate.symm.trans (validate_underflows hcode)
    match id with
    | 0 => exact Or.inr rfl
    | 1 => exact Or.inl rfl
    | _ + 2 => cases hcode
  · rintro (heq | heq) <;> cases heq <;>
    exact ⟨wellLaidOut_underflows, _, rfl, validate_underflows rfl⟩

/-- Of two sections that cannot be assembled and a list that is none, the first section is reported,
with `--parallel` too; behind a second path nothing is looked at; of two lists the last counts.
Two functions at fault can be logged in either order. -/
theorem respond_answers_severalFaults :
    respond ["--types", "none", "-"] (given faultyInput) =
        ⟨1, "", "Error: section 1: unknown mnemonic 'bogus' at line 1\n", []⟩ ∧
      LogsMore (respond ["--types", "none", "-"] (given faultyInput))
        (respond ["--types", "none", "--parallel", "-"] (given faultyInput)) ∧
      respond ["-", "--types", "none", "again", "--bogus"] (given faultyInput) =
        ⟨2, "", "Error: more than one input file\n\n" ++ usage ++ "\n", []⟩ ∧
      respond ["--types", "none", "--types", "0:0"] (given pushPopInput) =
        ⟨0, "function 0: max stack height 1\n", "", []⟩ ∧
      ∃ schedules,
        respond ["--types", "0:0,0:0", "--parallel"] (given underflowsInput) schedules =
          ⟨1, "", "Error: container rejected: function 0: stack underflow at 0x0: " ++
            "add requires 2 items, 0 present\n", [⟨1, nothingToAdd⟩, ⟨0, nothingToAdd⟩]⟩ := by
  -- the first run
  have hoptions : Understood ["--types", "none", "-"] { types := some "none", path := some "-" } :=
    ⟨[.setting (.types "none"), .path "-" (by decide)], rfl, by decide, rfl⟩
  have htext : HasText { types := some "none", path := some "-" } (given faultyInput)
      faultyInput := rfl
  have hstop : (splitSections faultyInput.toList)[0]? = some "stop\n".toList := by decide +kernel
  have hbogus : (splitSections faultyInput.toList)[1]? = some "bogus\n".toList := by
    decide +kernel
  have hunread : Unread { types := some "none", path := some "-" } (given faultyInput)
      (.code 1 (.assembly (.unknownMnemonic "bogus" 1))) := by
    refine .code htext hbogus (by decide +kernel) fun j hj earlier hearlier => ?_
    obtain rfl : j = 0 := Nat.lt_one_iff.mp hj
    cases hstop.symm.trans hearlier
    exact ⟨#[Opcode.Byte.stop], by decide +kernel⟩
  -- the same with one option more
  have hadds : AddsParallel ["--types", "none", "-"] ["--types", "none", "--parallel", "-"] :=
    .types "none" (.here ["-"])
  -- a second path
  have hfront : Understood ["-", "--types", "none"] { types := some "none", path := some "-" } :=
    ⟨[.path "-" (by decide), .setting (.types "none")], rfl, by decide, rfl⟩
  have hsecond : Misused (["-", "--types", "none"] ++ "again" :: ["--bogus"]) .secondPath :=
    .secondPath hfront (Option.some_ne_none "-") (by decide)
  -- a container that is accepted
  have hlast : Understood ["--types", "none", "--types", "0:0"] { types := some "0:0" } :=
    ⟨[.setting (.types "none"), .setting (.types "0:0")], rfl, by decide, rfl⟩
  -- two functions at fault
  have hparallel : Understood ["--types", "0:0,0:0", "--parallel"]
      { types := some "0:0,0:0", parallel := true } :=
    ⟨[.setting (.types "0:0,0:0"), .setting .parallel], rfl, by decide, rfl⟩
  have hlogs : underflows.verifier.Logs underflows.sections true
      [⟨1, nothingToAdd⟩, ⟨0, nothingToAdd⟩] :=
    .atOnce (by decide) fun _ => rejects_underflows.symm
  refine ⟨respond_of_unread (by decide) hoptions hunread,
    (respond_answers _ (given faultyInput)).2.2 _ hadds .inOrder .inOrder,
    respond_of_misused (by decide) hsecond, ?_, ?_⟩
  · rw [respond_of_reads (by decide) hlast reads_pushPop, responseTo_verify_of_ok verify_pushPop]
    decide +kernel
  · exact ((respond_answers _ _).1 _).mpr
      (.rejected (by decide) hparallel (reads_underflows true) verify_underflows hlogs)

/-- Behind `--types` the word `--parallel` is taken for the list of types.  Where it is an option, the
second of two functions at fault is logged as well. -/
theorem respond_parallel_differs :
    (respond ["--types"] (given "stop")).exitCode = 2 ∧
      (respond ["--types", "--parallel"] (given "stop")).exitCode = 1 ∧
      (respond ["--types", "0:0,0:0"] (given underflowsInput)).warnings =
        [⟨0, nothingToAdd⟩] ∧
      ⟨1, nothingToAdd⟩ ∈
        (respond ["--types", "0:0,0:0", "--parallel"] (given underflowsInput)).warnings := by
  have hmisused : Misused ["--types"] .missingTypes := .missingTypes .nil
  -- the word is the list of types
  have hlist : Understood ["--types", "--parallel"] { types := some "--parallel" } :=
    ⟨[.setting (.types "--parallel")], rfl, by decide, rfl⟩
  have hdecodes : Decodes { types := some "--parallel" } "stop" [#[Opcode.Byte.stop]] := by
    have hsections : splitSections "stop".toList = ["stop".toList] := by decide +kernel
    rw [Decodes, hsections]
    exact .cons (by decide +kernel) .nil
  obtain ⟨e, herror⟩ : ∃ e, TypeTable.parse "--parallel" = .error e :=
    ⟨⟨"--parallel"⟩, by decide +kernel⟩
  have hunread : Unread { types := some "--parallel" } (given "stop") (.types e) :=
    .types rfl hdecodes rfl herror
  -- the word is an option
  have hinTurn : Understood ["--types", "0:0,0:0"] { types := some "0:0,0:0" } :=
    ⟨[.setting (.types "0:0,0:0")], rfl, by decide, rfl⟩
  have hatOnce : Understood ["--types", "0:0,0:0", "--parallel"]
      { types := some "0:0,0:0", parallel := true } :=
    ⟨[.setting (.types "0:0,0:0"), .setting .parallel], rfl, by decide, rfl⟩
  refine ⟨?_, ?_, ?_, ?_⟩
  · rw [respond_of_misused (by decide) hmisused]
  · rw [respond_of_unread (by decide) hlist hunread]
    rfl
  · rw [respond_of_reads (by decide) hinTurn (reads_underflows false),
      responseTo_verify_of_error verify_underflows]
    show (underflows.verifier.verifyInTurn underflows.sections).warnings = _
    rw [Verifier.warnings_verifyInTurn, verify_underflows]
    rfl
  · rw [respond_of_reads (by decide) hatOnce (reads_underflows true),
      responseTo_verify_of_error verify_underflows]
    exact (Verifier.mem_warnings_verifyCompleting _).mpr
      (rejects_underflows.mpr List.mem_cons_self)

end EofStack.CommandLine
