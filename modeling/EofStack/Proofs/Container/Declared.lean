import EofStack.Proofs.Container.Verdict
import EofStack.Proofs.FunctionType.Printed
import EofStack.Proofs.Stack.Locality
import Mathlib.Data.Nat.Find

/-!
# Declared heights

What functions declare of their greatest height is compared with what validation computes, and does
nothing else.  So the declarations of an accepted container may be exchanged for any others, and what
verification then comes to is known in advance: the container is accepted with the same report as
long as every declared height is the one of the report, and otherwise the least function that
declares another height is reported.

In particular the report of an accepted container can be written into its types, and no declaration
needs to stand there at all.

## Strategy

A walk reads the arities in the table and nothing else of it (`walk_congr`), neither for the function
itself nor for the ones that it calls.  So no function is validated differently after an exchange
(`validate_declaring`), and only the comparison behind validation is left
(`verify_declaring_of_agree`, `verify_declaring_of_ne`).
-/

namespace EofStack

/-! ## Other declarations -/

/-- The types with the declared heights that `declared` gives to each function. -/
def TypeTable.declaring (types : TypeTable) (declared : Nat → Option UInt16) : TypeTable :=
  types.mapIdx fun id type => { type with declaredHeight := declared id }

namespace TypeTable

variable {types : TypeTable} {declared : Nat → Option UInt16} {id : Nat}

theorem size_declaring : (types.declaring declared).size = types.size :=
  Array.size_mapIdx

theorem getElem?_declaring :
    (types.declaring declared)[id]? =
      types[id]?.map fun type => { type with declaredHeight := declared id } :=
  Array.getElem?_mapIdx

theorem arity_declaring :
    (types.declaring declared)[id]?.map FunctionType.arity =
      types[id]?.map FunctionType.arity := by
  rw [getElem?_declaring, Option.map_map]
  rfl

end TypeTable

/-! ## Walks do not read them -/

namespace Stack

variable {types types' : TypeTable} {type type' : FunctionType} {code : Code}

/-- The tables say the same of what functions take and leave. -/
structure SameArities (types types' : TypeTable) : Prop where
  size : types'.size = types.size
  arity : ∀ id : Nat, types'[id]?.map FunctionType.arity = types[id]?.map FunctionType.arity

theorem effect_congr (h : SameArities types types') (i : Instruction) :
    effect types' i = effect types i := by
  unfold effect
  cases i.callee? with
  | none => rfl
  | some callee =>
      have harity := h.arity callee
      dsimp only
      cases htype : types[callee]? with
      | none =>
          rw [htype, Option.map_none, Option.map_eq_none_iff] at harity
          rw [harity, h.size]
      | some type =>
          rw [htype, Option.map_some, Option.map_eq_some_iff] at harity
          obtain ⟨type', htype', heq⟩ := harity
          obtain ⟨hinputs, houtputs⟩ := Prod.mk.inj heq
          rw [htype']
          dsimp only
          rw [hinputs, houtputs]

theorem step_congr (h : SameArities types types') (harity : type'.arity = type.arity)
    (walk : Walk code.size) :
    Body.step ⟨types', type', code⟩ walk = Body.step ⟨types, type, code⟩ walk := by
  have hinspect : ∀ offset, Body.inspect ⟨types', type', code⟩ offset =
      Body.inspect ⟨types, type, code⟩ offset := by
    intro offset
    simp only [Body.inspect, effect_congr h]
  have hexecute : ∀ i e height, Body.execute ⟨types', type', code⟩ i e height =
      Body.execute ⟨types, type, code⟩ i e height :=
    fun i e height => execute_congr harity i e height
  simp only [Body.step, hinspect, hexecute]

/-- A walk depends on nothing in the table but the arities. -/
theorem walk_congr (h : SameArities types types') (harity : type'.arity = type.arity) :
    Body.walk ⟨types', type', code⟩ = Body.walk ⟨types, type, code⟩ := by
  have hresume : ∀ walk : Walk code.size,
      Body.resume ⟨types', type', code⟩ walk = Body.resume ⟨types, type, code⟩ walk := by
    intro walk
    induction walk using Body.resume.induct ⟨types, type, code⟩ with
    | case1 walk outcome hended =>
        rw [Body.resume_of_ended hended]
        exact Body.resume_of_ended ((step_congr h harity walk).trans hended)
    | case2 walk next hadvanced ih =>
        rw [Body.resume_of_advanced hadvanced]
        exact (Body.resume_of_advanced ((step_congr h harity walk).trans hadvanced)).trans ih
  have hinputs : type'.inputs = type.inputs := (Prod.mk.inj harity).1
  unfold Body.walk
  rw [hinputs]
  exact hresume _

end Stack

namespace Verifier

variable {verifier : Verifier} {declared : Nat → Option UInt16} {sections : List Code}
  {report : Report}

/-- The verifier for functions with the declared heights that `declared` gives to each. -/
def declaring (verifier : Verifier) (declared : Nat → Option UInt16) : Verifier :=
  { verifier with types := verifier.types.declaring declared }

/-- Validation does not depend on declared heights, be it of the function or of its callees. -/
theorem validate_declaring (verifier : Verifier) (declared : Nat → Option UInt16) (id : Nat)
    (code : Code) :
    (verifier.declaring declared).validate id code = verifier.validate id code := by
  have hsame : Stack.SameArities verifier.types (verifier.types.declaring declared) :=
    ⟨TypeTable.size_declaring, fun _ => TypeTable.arity_declaring⟩
  have htypes : (verifier.declaring declared).types = verifier.types.declaring declared := rfl
  unfold Stack.Validator.validate Stack.Validator.trace
  rw [htypes, TypeTable.getElem?_declaring, TypeTable.size_declaring]
  cases verifier.types[id]? with
  | none => rfl
  | some type =>
      have harity : ({ type with declaredHeight := declared id } : FunctionType).arity =
        type.arity := rfl
      dsimp only [Option.map_some]
      rw [Stack.walk_congr hsame harity]
      rfl

/-! ## Verification after an exchange -/

theorem WellLaidOut.declaring (h : verifier.WellLaidOut sections)
    (declared : Nat → Option UInt16) : (verifier.declaring declared).WellLaidOut sections := by
  obtain ⟨hsize, entry, hentry, hinputs, houtputs⟩ := h
  have hentry' : (verifier.types.declaring declared)[0]? =
      some { entry with declaredHeight := declared 0 } := by
    rw [TypeTable.getElem?_declaring, hentry, Option.map_some]
  exact ⟨hsize.trans TypeTable.size_declaring.symm, _, hentry', hinputs, houtputs⟩

/-- Of a function of the table, the exchanged declaration is the one that counts. -/
theorem declaredHeight_declaring {id : Nat} (h : id < verifier.types.size) :
    (verifier.declaring declared).types[id]?.bind FunctionType.declaredHeight = declared id := by
  have htypes : (verifier.declaring declared).types = verifier.types.declaring declared := rfl
  rw [htypes, TypeTable.getElem?_declaring, Array.getElem?_eq_getElem h]
  rfl

/-- An accepted container is laid out well, and the report has the computed height of each
function. -/
theorem accepted_of_verify (h : verifier.verify sections = .ok report) :
    verifier.WellLaidOut sections ∧ report.heights.length = sections.length ∧
      ∀ (id : Nat) (code : Code), sections[id]? = some code →
        ∃ height, report.heights[id]? = some height ∧ verifier.Accepts id code height := by
  cases verify_eq_iff.mp h with
  | accepted hlayout hlength haccepts => exact ⟨hlayout, hlength, haccepts⟩

/-- A function that declares nothing but its computed height is accepted with it. -/
theorem accepts_declaring (h : verifier.verify sections = .ok report) {id : Nat} {code : Code}
    (hcode : sections[id]? = some code)
    (hagree : ∀ value ∈ declared id, report.heights[id]? = some value.toNat) :
    ∃ height, report.heights[id]? = some height ∧
      (verifier.declaring declared).Accepts id code height := by
  obtain ⟨hlayout, -, haccepts⟩ := accepted_of_verify h
  obtain ⟨height, hheight, haccept⟩ := haccepts id code hcode
  have hid : id < verifier.types.size := hlayout.1 ▸ (List.getElem?_eq_some_iff.mp hcode).1
  refine ⟨height, hheight, ?_, ?_⟩
  · rw [validate_declaring, haccept.validate]
  · intro value hvalue
    rw [declaredHeight_declaring hid] at hvalue
    have hsame := hagree value hvalue
    rw [hheight, Option.some.injEq] at hsame
    exact hsame.symm

/-- If every declared height is the one of the report, the report stays what it is. -/
theorem verify_declaring_of_agree (h : verifier.verify sections = .ok report)
    (hagree : ∀ id < sections.length, ∀ value ∈ declared id,
      report.heights[id]? = some value.toNat) :
    (verifier.declaring declared).verify sections = .ok report := by
  obtain ⟨hlayout, hlength, -⟩ := accepted_of_verify h
  refine verify_eq_iff.mpr (.accepted (hlayout.declaring declared) hlength ?_)
  intro id code hcode
  exact accepts_declaring h hcode (hagree id (List.getElem?_eq_some_iff.mp hcode).1)

/-- Otherwise the least function that declares another height is reported, with both heights. -/
theorem verify_declaring_of_ne (h : verifier.verify sections = .ok report) {id height : Nat}
    {value : UInt16} (hheight : report.heights[id]? = some height)
    (hvalue : declared id = some value) (hne : value.toNat ≠ height)
    (hagree : ∀ id' < id, ∀ value' ∈ declared id', report.heights[id']? = some value'.toNat) :
    (verifier.declaring declared).verify sections = .error (.declaredHeight id value height) := by
  obtain ⟨hlayout, hlength, haccepts⟩ := accepted_of_verify h
  have hid : id < sections.length := hlength ▸ (List.getElem?_eq_some_iff.mp hheight).1
  have hcode := List.getElem?_eq_getElem hid
  obtain ⟨height', hheight', haccept⟩ := haccepts id _ hcode
  obtain rfl : height = height' := Option.some.inj (hheight.symm.trans hheight')
  refine verify_eq_iff.mpr (.refused (hlayout.declaring declared) hcode ?_ ?_)
  · refine .declaredHeight ?_ ?_ hne
    · rw [validate_declaring, haccept.validate]
    · rw [declaredHeight_declaring (hlayout.1 ▸ hid), hvalue]
  · intro id' hlt code' hcode'
    obtain ⟨height', -, haccept'⟩ := accepts_declaring h hcode' (hagree id' hlt)
    exact ⟨height', haccept'⟩

/-- No height of an accepted container is above the limit. -/
theorem le_limit_of_verify (h : verifier.verify sections = .ok report) {height : Nat}
    (hmem : height ∈ report.heights) : height ≤ verifier.limit := by
  obtain ⟨-, hlength, haccepts⟩ := accepted_of_verify h
  obtain ⟨id, hid⟩ := List.getElem?_of_mem hmem
  have hlt : id < sections.length := hlength ▸ (List.getElem?_eq_some_iff.mp hid).1
  obtain ⟨height', hheight', haccept⟩ := haccepts id _ (List.getElem?_eq_getElem hlt)
  obtain rfl : height = height' := Option.some.inj (hid.symm.trans hheight')
  obtain ⟨-, -, -, hle⟩ := Stack.Validator.validate_eq_ok_iff.mp haccept.validate
  exact hle

/-! ## Three exchanges -/

/-- What a function declares. -/
def declared? (verifier : Verifier) (id : Nat) : Option UInt16 :=
  verifier.types[id]?.bind FunctionType.declaredHeight

/-- The verifier for functions of which some no longer declare anything. -/
def withdrawing (verifier : Verifier) (withdrawn : Nat → Bool) : Verifier :=
  verifier.declaring fun id => if withdrawn id then none else verifier.declared? id

/-- The verifier for functions that declare the heights of the report. -/
def annotating (verifier : Verifier) (report : Report) : Verifier :=
  verifier.declaring fun id => report.heights[id]?.map UInt16.ofNat

/-- The verifier for functions of which some declare another height, given by `changed`. -/
def changing (verifier : Verifier) (changed : Nat → Option UInt16) : Verifier :=
  verifier.declaring fun id => (changed id).or (verifier.declared? id)

/-- A function of an accepted container declares its computed height, if it declares any. -/
theorem getElem?_of_declared? (h : verifier.verify sections = .ok report) {id : Nat}
    (hid : id < sections.length) {value : UInt16} (hvalue : value ∈ verifier.declared? id) :
    report.heights[id]? = some value.toNat := by
  obtain ⟨-, -, haccepts⟩ := accepted_of_verify h
  obtain ⟨height, hheight, haccept⟩ := haccepts id _ (List.getElem?_eq_getElem hid)
  rw [hheight, haccept.declared value hvalue]

theorem verify_withdrawing (h : verifier.verify sections = .ok report) (withdrawn : Nat → Bool) :
    (verifier.withdrawing withdrawn).verify sections = .ok report := by
  apply verify_declaring_of_agree h
  intro id hid value hvalue
  split at hvalue
  · cases hvalue
  · exact getElem?_of_declared? h hid hvalue

theorem verify_annotating (h : verifier.verify sections = .ok report)
    (hword : ∀ height ∈ report.heights, height ≤ 65535) :
    (verifier.annotating report).verify sections = .ok report := by
  apply verify_declaring_of_agree h
  intro id _ value hvalue
  obtain ⟨height, hheight, rfl⟩ := Option.map_eq_some_iff.mp hvalue
  have hle := hword height (List.mem_of_getElem? hheight)
  rw [hheight, UInt16.toNat_ofNat', Nat.mod_eq_of_lt (by omega)]

/-- Of the functions that declare another height than before, the least is reported. -/
theorem verify_changing (h : verifier.verify sections = .ok report)
    {changed : Nat → Option UInt16} {id height : Nat} {value : UInt16}
    (hvalue : changed id = some value) (hleast : ∀ id' < id, changed id' = none)
    (hheight : report.heights[id]? = some height) (hne : value.toNat ≠ height) :
    (verifier.changing changed).verify sections = .error (.declaredHeight id value height) := by
  obtain ⟨-, hlength, -⟩ := accepted_of_verify h
  have hid : id < sections.length := hlength ▸ (List.getElem?_eq_some_iff.mp hheight).1
  apply verify_declaring_of_ne h hheight _ hne
  · intro id' hlt value' hvalue'
    rw [hleast id' hlt, Option.none_or] at hvalue'
    exact getElem?_of_declared? h (hlt.trans hid) hvalue'
  · rw [hvalue, Option.some_or]

/-- **Declaring the computed heights is a fixed point.**  An accepted container stays accepted, with
the same report, if some of its functions no longer declare a height, or if all of them declare the
one that the report has for them; the types with these declarations can be printed and read back.
If after that any of the functions declare other heights, the least of them is reported with the
declared height and the computed one. -/
theorem verify_fixed (h : verifier.verify sections = .ok report) :
    (∀ withdrawn : Nat → Bool,
      (verifier.withdrawing withdrawn).verify sections = .ok report ∧
      (verifier.withdrawing withdrawn).verifyParallel sections = .ok report) ∧
    (verifier.limit ≤ 65535 → ∀ height ∈ report.heights, height ≤ 65535) ∧
    ((∀ height ∈ report.heights, height ≤ 65535) →
      ((verifier.annotating report).verify sections = .ok report ∧
        (verifier.annotating report).verifyParallel sections = .ok report) ∧
      TypeTable.parse (verifier.annotating report).types.text =
        .ok (verifier.annotating report).types ∧
      ∀ changed : Nat → Option UInt16, (∃ id, changed id ≠ none) →
        (∀ id value, changed id = some value →
          ∃ height, report.heights[id]? = some height ∧ value.toNat ≠ height) →
        ∃ id value height, changed id = some value ∧ (∀ id' < id, changed id' = none) ∧
          report.heights[id]? = some height ∧
          ((verifier.annotating report).changing changed).verify sections =
            .error (.declaredHeight id value height) ∧
          ((verifier.annotating report).changing changed).verifyParallel sections =
            .error (.declaredHeight id value height)) := by
  have hparallel : ∀ verifier : Verifier,
      verifier.verifyParallel sections = verifier.verify sections :=
    fun _ => verifyCompleting_eq_verify _ _
  refine ⟨?withdrawn, ?word, fun hword => ⟨?annotated, TypeTable.parse_text _, ?changed⟩⟩
  case withdrawn =>
    intro withdrawn
    rw [hparallel]
    exact ⟨verify_withdrawing h withdrawn, verify_withdrawing h withdrawn⟩
  case word =>
    intro hlimit height hmem
    exact (le_limit_of_verify h hmem).trans hlimit
  case annotated =>
    rw [hparallel]
    exact ⟨verify_annotating h hword, verify_annotating h hword⟩
  case changed =>
    intro changed hsome hother
    -- the set of functions that are changed is not empty, so it has a least element
    obtain ⟨id, hid, hleast⟩ : ∃ id, changed id ≠ none ∧ ∀ id' < id, changed id' = none := by
      classical
      refine ⟨Nat.find hsome, Nat.find_spec hsome, fun id' hlt => ?_⟩
      exact not_not.mp (Nat.find_min hsome hlt)
    obtain ⟨value, hvalue⟩ := Option.ne_none_iff_exists'.mp hid
    obtain ⟨height, hheight, hne⟩ := hother id value hvalue
    have hverify := verify_changing (verify_annotating h hword) hvalue hleast hheight hne
    rw [hparallel]
    exact ⟨id, value, height, hvalue, hleast, hheight, hverify, hverify⟩

/-- Three functions, of which the first calls the second and declares its height. -/
def declaringTypes : TypeTable := #[⟨0, 0, some 2⟩, ⟨2, 1, none⟩, ⟨0, 0, none⟩]

/-- Their code. -/
def declaringSections : List Code :=
  [#[0x5f, 0x5f, 0xb0, 0, 1, 0x50, 0x00], #[0x01, 0xb1], #[0x5f, 0x50, 0x00]]

/-- Other heights for the second and the third. -/
def otherHeights (id : Nat) : Option UInt16 :=
  if id = 1 then some 0 else if id = 2 then some 65535 else none

theorem verify_fixed_declaringSections :
    ({ types := declaringTypes } : Verifier).verify declaringSections = .ok ⟨[2, 2, 1]⟩ ∧
      (({ types := declaringTypes } : Verifier).withdrawing fun _ => true).verify
        declaringSections = .ok ⟨[2, 2, 1]⟩ ∧
      (({ types := declaringTypes } : Verifier).annotating ⟨[2, 2, 1]⟩).types.text =
        "0:0:2,2:1:2,0:0:1" ∧
      (({ types := declaringTypes } : Verifier).annotating ⟨[2, 2, 1]⟩).verify
        declaringSections = .ok ⟨[2, 2, 1]⟩ ∧
      ((({ types := declaringTypes } : Verifier).annotating ⟨[2, 2, 1]⟩).changing
        otherHeights).verifyParallel declaringSections = .error (.declaredHeight 1 0 2) := by
  have hfirst : ({ types := declaringTypes } : Stack.Validator).validate 0
      #[0x5f, 0x5f, 0xb0, 0, 1, 0x50, 0x00] = .ok 2 :=
    Stack.Validator.validate_eq_ok_iff.mpr
      ⟨⟨0, 0, some 2⟩, rfl, Stack.Body.result_of_runFor 20 (by decide +kernel), by decide⟩
  have hsecond : ({ types := declaringTypes } : Stack.Validator).validate 1 #[0x01, 0xb1] = .ok 2 :=
    Stack.Validator.validate_eq_ok_iff.mpr
      ⟨⟨2, 1, none⟩, rfl, Stack.Body.result_of_runFor 20 (by decide +kernel), by decide⟩
  have hthird : ({ types := declaringTypes } : Stack.Validator).validate 2
      #[0x5f, 0x50, 0x00] = .ok 1 :=
    Stack.Validator.validate_eq_ok_iff.mpr
      ⟨⟨0, 0, none⟩, rfl, Stack.Body.result_of_runFor 20 (by decide +kernel), by decide⟩
  have hresults : ({ types := declaringTypes } : Verifier).resultsFrom 0 declaringSections =
      [.ok 2, .ok 2, .ok 1] := by
    unfold declaringSections
    simp only [resultsFrom, verifyFunction, hfirst, Nat.zero_add, hsecond, Nat.reduceAdd, hthird]
    rfl
  have hverify : ({ types := declaringTypes } : Verifier).verify declaringSections =
      .ok ⟨[2, 2, 1]⟩ := by
    rw [verify_of_checkLayout rfl, hresults]
    rfl
  have hother : ∀ id value, otherHeights id = some value →
      ∃ height, ([2, 2, 1] : List Nat)[id]? = some height ∧ value.toNat ≠ height := by
    intro id value hvalue
    unfold otherHeights at hvalue
    split at hvalue
    · next hid =>
      cases hvalue
      exact ⟨2, by rw [hid]; rfl, by decide⟩
    split at hvalue
    · next hid =>
      cases hvalue
      exact ⟨1, by rw [hid]; rfl, by decide⟩
    · cases hvalue
  obtain ⟨hwithdrawing, -, hannotated⟩ := verify_fixed hverify
  obtain ⟨⟨hannotating, -⟩, -, hchanging⟩ := hannotated (by decide)
  obtain ⟨id, value, height, hvalue, hleast, hheight, -, herror⟩ :=
    hchanging otherHeights ⟨1, by decide⟩ hother
  have hid : id = 1 := by
    rcases Nat.lt_trichotomy id 1 with hlt | heq | hgt
    · obtain rfl : id = 0 := by omega
      cases hvalue
    · exact heq
    · cases hleast 1 hgt
  subst hid
  cases hvalue
  cases hheight
  exact ⟨hverify, (hwithdrawing fun _ => true).1, by decide +kernel, hannotating, herror⟩

end Verifier

end EofStack
