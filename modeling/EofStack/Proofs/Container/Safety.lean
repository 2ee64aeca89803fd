import EofStack.Proofs.Container.Machine
import EofStack.Proofs.Container.Verify

/-!
# Runs of an accepted container

Every function of a container is validated on its own, with the types of the others for what they
take and leave.  Together this is enough for whole runs, whatever calls whatever: no configuration
that the machine can reach has gone wrong.

## Strategy

`Modular` collects what verification gives for the functions one by one.  The invariant of a run
says of each frame what `Reach` says of its function alone: of the function on top, that it can
arrive where it stands with the items above its base; and of a function that waits for a callee,
that it can arrive behind the call with what it will have once the callee has left its outputs.
So a call assumes that its callee keeps to the declared type, and the callee's own return, when it
comes to it, makes good on that.  It does not matter whether the callee is the caller itself.
-/

namespace EofStack

open Stack

namespace Program

variable {program : Program} {heights : List Nat}

/-! ## Functions one by one -/

/-- Each function is sound up to the height in the report, if the types of the others hold. -/
structure Modular (program : Program) (heights : List Nat) : Prop where
  length_sections : program.sections.length = program.types.size
  entry : ∃ type, program.types[0]? = some type ∧ type.inputs = 0 ∧ type.outputs = 0
  sound : ∀ {function : Nat} {type : FunctionType} {code : Code},
    program.types[function]? = some type → program.sections[function]? = some code →
    ∃ peak, heights[function]? = some peak ∧ Sound ⟨program.types, type, code⟩ peak

/-- The function of the frame, run on its own, can arrive where it stands with that many items. -/
def Arrives (program : Program) (function offset items : Nat) : Prop :=
  ∃ type code, program.types[function]? = some type ∧ program.sections[function]? = some code ∧
    Reach ⟨program.types, type, code⟩ offset items

theorem Modular.arrives_entry (h : program.Modular heights) {function : Nat} {type : FunctionType}
    (htype : program.types[function]? = some type) :
    program.Arrives function 0 type.inputs.toNat := by
  have hlt : function < program.sections.length := by
    rw [h.length_sections]
    exact (Array.getElem?_eq_some_iff.mp htype).1
  exact ⟨type, _, htype, List.getElem?_eq_getElem hlt, .entry⟩

/-- Where a function can arrive there is an instruction, it is safe, and it does not exceed the
height of the report. -/
theorem Modular.safe_of_arrives (h : program.Modular heights) {function offset items : Nat}
    (harrives : program.Arrives function offset items) :
    ∃ body i e peak, body.types = program.types ∧
      program.types[function]? = some body.type ∧ program.sections[function]? = some body.code ∧
      body.code.decodeAt offset = .ok i ∧ HasEffect program.types i e ∧ Safe body i e items ∧
      heights[function]? = some peak ∧ items ≤ peak ∧ (items : Int) + e.change ≤ peak := by
  obtain ⟨type, code, htype, hcode, hreach⟩ := harrives
  obtain ⟨peak, hpeak, hsound⟩ := h.sound htype hcode
  obtain ⟨i, e, hdecode, heffect, hsafe, hbefore, hbehind⟩ := hsound.safe hreach
  exact ⟨⟨program.types, type, code⟩, i, e, peak, rfl, htype, hcode, hdecode, heffect, hsafe, hpeak,
    hbefore, hbehind⟩

/-- A function goes on from where it can arrive. -/
theorem Modular.arrives_step (h : program.Modular heights) {f : Frame} {items : Nat}
    (harrives : program.Arrives f.function f.offset items) {i : Instruction}
    (hfetch : program.Fetches f i) {e : Effect} (heffect : HasEffect program.types i e)
    {target : Nat} (hleads : Leads i target) :
    e.required ≤ items ∧ ∃ items' : Nat, (items' : Int) = items + e.change ∧
      program.Arrives f.function target items' := by
  obtain ⟨type, code, htype, hcode, hreach⟩ := harrives
  -- what the machine fetches is what validation has looked at
  obtain ⟨code', hcode', hdecode⟩ := hfetch
  cases hcode.symm.trans hcode'
  obtain ⟨peak, -, hsound⟩ := h.sound htype hcode
  obtain ⟨i', e', hdecode', heffect', hsafe, -⟩ := hsound.safe hreach
  cases hdecode.symm.trans hdecode'
  cases heffect.unique heffect'
  have hnonneg := heffect.change_nonneg (Code.mem_table_of_decodeAt hdecode) hsafe.enough
  obtain ⟨items', hitems'⟩ := Int.eq_ofNat_of_zero_le hnonneg
  exact ⟨hsafe.enough, items', hitems'.symm, type, code, htype, hcode,
    hreach.step hdecode heffect hsafe.enough hitems'.symm hleads⟩

/-- A function that returns leaves its outputs. -/
theorem Modular.outputs_of_ret (h : program.Modular heights) {f : Frame} {items : Nat}
    (harrives : program.Arrives f.function f.offset items) {i : Instruction}
    (hfetch : program.Fetches f i) (hflow : i.opcode.flow = .ret) :
    ∃ type, program.types[f.function]? = some type ∧
      (items : Int) + i.opcode.change = type.outputs.toNat := by
  obtain ⟨body, i', e, peak, -, htype, hcode, hdecode, heffect, hsafe, -⟩ :=
    h.safe_of_arrives harrives
  obtain ⟨code', hcode', hdecode'⟩ := hfetch
  cases hcode.symm.trans hcode'
  cases hdecode.symm.trans hdecode'
  refine ⟨body.type, htype, ?_⟩
  cases heffect with
  | own => exact hsafe.ret hflow
  | call hcallee => rw [Instruction.flow_of_callee? hcallee] at hflow; cases hflow

/-! ## Frames that wait -/

/-- The frames below a function wait for what it leaves above its base.  The first function has
none below it, and begins at the bottom of the stack. -/
inductive Waiting (program : Program) : Nat → Int → List Frame → Prop
  | first : Waiting program 0 0 []
  | caller {callee : Nat} {base : Int} {caller : Frame} {rest : List Frame} {type : FunctionType}
      {items : Nat} (htype : program.types[callee]? = some type)
      (hitems : (items : Int) = base - caller.base + type.outputs.toNat)
      (hbase : caller.base ≤ base)
      (harrives : program.Arrives caller.function caller.offset items)
      (hwaiting : Waiting program caller.function caller.base rest) :
      Waiting program callee base (caller :: rest)

variable {function : Nat} {base : Int} {rest : List Frame}

theorem Waiting.bases (h : program.Waiting function base rest) :
    0 ≤ base ∧ ∀ g ∈ rest, 0 ≤ g.base ∧ g.base ≤ base := by
  induction h with
  | first => simp
  | caller htype hitems hbase harrives hwaiting ih =>
      refine ⟨by omega, List.forall_mem_cons.mpr ⟨⟨ih.1, hbase⟩, fun g hg => ?_⟩⟩
      have hg := ih.2 g hg
      omega

/-- What is below a base is not higher than the functions that wait can make it. -/
theorem Waiting.base_le (h : program.Waiting function base rest)
    (hmodular : program.Modular heights) :
    base ≤ room heights rest := by
  induction h with
  | first => exact Int.le_refl 0
  | caller htype hitems hbase harrives hwaiting ih =>
      obtain ⟨body, i, e, peak, -, -, -, -, -, -, hpeak, hle, -⟩ :=
        hmodular.safe_of_arrives harrives
      simp only [room, hpeak, Option.getD_some]
      omega

/-! ## The invariant of a run -/

/-- Every frame is where its function, run on its own, can arrive. -/
inductive Consistent (program : Program) : Configuration → Prop
  | returned : Consistent program ⟨0, []⟩
  | running {height : Int} {f : Frame} {rest : List Frame} {items : Nat}
      (hheight : height = f.base + items)
      (harrives : program.Arrives f.function f.offset items)
      (hwaiting : program.Waiting f.function f.base rest) :
      Consistent program ⟨height, f :: rest⟩

theorem consistent_start (h : program.Modular heights) : program.Consistent start := by
  obtain ⟨type, htype, hinputs, -⟩ := h.entry
  have hentry := h.arrives_entry htype
  rw [hinputs] at hentry
  exact .running rfl hentry .first

/-- With the outputs of the function above its base, the frames below it are consistent. -/
theorem Waiting.consistent (hwaiting : program.Waiting function base rest)
    (h : program.Modular heights) {type : FunctionType}
    (htype : program.types[function]? = some type) :
    program.Consistent ⟨base + type.outputs.toNat, rest⟩ := by
  cases hwaiting with
  | first =>
      -- the first function leaves nothing, and there is nothing below it
      obtain ⟨entry, hentry, -, houtputs⟩ := h.entry
      cases htype.symm.trans hentry
      rw [houtputs]
      exact .returned
  | caller htype' hitems _ harrives hwaiting =>
      cases htype.symm.trans htype'
      exact .running (by omega) harrives hwaiting

theorem Consistent.step (h : program.Modular heights) {c c' : Configuration}
    (hc : program.Consistent c) (hstep : program.Step c c') : program.Consistent c' := by
  cases hc with
  | returned => cases hstep
  | running hheight harrives hwaiting =>
      cases hstep with
      | goes hfetch hflow hleads =>
          have hnone := Instruction.callee?_eq_none hflow
          obtain ⟨-, items', hitems', harrives'⟩ :=
            h.arrives_step harrives hfetch (.own hnone) hleads
          refine .running ?_ harrives' hwaiting
          simp only at hitems' ⊢
          omega
      | calls hfetch hcallee htype =>
          have hcall := Instruction.flow_of_callee? hcallee
          -- the caller goes on behind the call before the callee has done anything
          obtain ⟨henough, items', hitems', harrives'⟩ :=
            h.arrives_step harrives hfetch (.call hcallee htype)
              (.next (by simp [Opcode.isTerminating, hcall]))
          obtain ⟨_, _, hdecode⟩ := hfetch
          have hown := Opcode.required_add_change_nonneg (Code.mem_table_of_decodeAt hdecode)
          simp only at henough hitems'
          refine .running (by simp) (h.arrives_entry htype) (.caller htype ?_ ?_ harrives' hwaiting)
          · simp only
            omega
          · simp only
            omega
      | returns hfetch hflow =>
          -- the callee leaves its outputs, which is what the caller has been waiting for
          obtain ⟨type, htype, hret⟩ := h.outputs_of_ret harrives hfetch hflow
          rw [hheight, Int.add_assoc, hret]
          exact hwaiting.consistent h htype

/-- Whatever configuration a run leads to is consistent. -/
theorem Reachable.consistent (h : program.Modular heights) {c : Configuration}
    (hreachable : program.Reachable c) : program.Consistent c := by
  induction hreachable with
  | refl => exact consistent_start h
  | tail _ hstep ih => exact ih.step h hstep

/-! ## Consistent configurations are secure -/

/-- An instruction that is safe can be executed, unless it ends the run. -/
theorem step_of_safe {height : Int} {f : Frame} {rest : List Frame} {i : Instruction}
    (hfetch : program.Fetches f i) {e : Effect} (heffect : HasEffect program.types i e)
    {body : Body} {items : Nat} (hsafe : Safe body i e items) :
    i.opcode.flow = .halt ∨ ∃ next, program.Step ⟨height, f :: rest⟩ next := by
  have hwell : i.WellFormed := by
    obtain ⟨_, _, hdecode⟩ := hfetch
    exact Code.wellFormed_of_decodeAt hdecode
  cases hflow : i.opcode.flow with
  | halt => exact Or.inl rfl
  | ret => exact Or.inr ⟨_, .returns hfetch hflow⟩
  | call =>
      obtain ⟨-, hcallee⟩ := Instruction.callee?_of_call hwell hflow
      cases heffect with
      | own hnone => rw [hnone] at hcallee; cases hcallee
      | call hcallee' htype => exact Or.inr ⟨_, .calls hfetch hcallee' htype⟩
  | jump =>
      obtain ⟨displacement, hdisplacements⟩ :=
        Instruction.exists_displacements_eq hwell (Or.inl hflow)
      have hmem : displacement ∈ i.displacements := by simp [hdisplacements]
      obtain ⟨target, htarget⟩ := Int.eq_ofNat_of_zero_le (hsafe.targets _ hmem)
      exact Or.inr ⟨_, .goes hfetch (by simp [hflow]) (.target hmem htarget.symm)⟩
  | straight | branch | table =>
      have hnext : i.opcode.isTerminating = false := by simp [Opcode.isTerminating, hflow]
      exact Or.inr ⟨_, .goes hfetch (by simp [hflow]) (.next hnext)⟩

/-- Nothing has gone wrong in a consistent configuration. -/
theorem Consistent.secure (h : program.Modular heights) {c : Configuration}
    (hc : program.Consistent c) : program.Secure heights c := by
  cases hc with
  | returned => exact .returned
  | running hheight harrives hwaiting =>
      obtain ⟨body, i, e, peak, htypes, htype, hcode, hdecode, heffect, hsafe, hpeak, hle⟩ :=
        h.safe_of_arrives harrives
      have hbases := hwaiting.bases
      refine .running
        { types := htypes, type := htype, code := hcode, decode := hdecode, effect := heffect,
          height_eq := hheight, safe := hsafe, peak_eq := hpeak, le_peak := hle,
          bases := List.forall_mem_cons.mpr ⟨⟨hbases.1, Int.le_refl _⟩, hbases.2⟩,
          progress := step_of_safe ⟨_, hcode, hdecode⟩ heffect hsafe
          callee := ?_, height_le := ?_ }
      · intro callee hcallee
        rw [h.length_sections, and_self]
        cases heffect with
        | own hnone => rw [hnone] at hcallee; cases hcallee
        | call hcallee' htype' =>
            cases hcallee.symm.trans hcallee'
            exact (Array.getElem?_eq_some_iff.mp htype').1
      · have hbase := hwaiting.base_le h
        simp only [room, hpeak, Option.getD_some]
        omega

end Program

/-! ## Verification -/

namespace Verifier

variable {verifier : Verifier} {sections : List Code} {report : Report}

/-- An accepted container is sound function by function. -/
theorem modular_of_verify (h : verifier.verify sections = .ok report) :
    Program.Modular ⟨verifier.types, sections⟩ report.heights := by
  obtain ⟨hlayout, hvalid⟩ := validate_of_verify h
  obtain ⟨hlength, hentry⟩ := checkLayout_eq_ok_iff.mp hlayout
  refine ⟨hlength, hentry, fun {function type code} htype hcode => ?_⟩
  obtain ⟨peak, hpeak, hvalidate⟩ := hvalid hcode
  obtain ⟨type', htype', hresult, -⟩ := Stack.Validator.validate_eq_ok_iff.mp hvalidate
  cases htype.symm.trans htype'
  exact ⟨peak, hpeak, (walk_of_ok hresult).1⟩

/-- No run of an accepted container goes wrong, however long it is and however deep its calls
are. -/
theorem secure_of_verify (h : verifier.verify sections = .ok report) {c : Configuration}
    (hreachable : Program.Reachable ⟨verifier.types, sections⟩ c) :
    Program.Secure ⟨verifier.types, sections⟩ report.heights c :=
  (hreachable.consistent (modular_of_verify h)).secure (modular_of_verify h)

/-- The first function pushes two items, of which the second takes one and calls itself. -/
def recursion : Program where
  types := #[⟨0, 0, none⟩, ⟨1, 1, none⟩]
  sections := [#[0x5f, 0x5f, 0xb0, 0, 1, 0x50, 0x50, 0x00], #[0xb0, 0, 1, 0xb1]]

theorem secure_of_verify_recursion :
    ({ types := recursion.types } : Verifier).verify recursion.sections = .ok ⟨[2, 1]⟩ ∧
      recursion.Reachable ⟨2, [⟨1, 0, 1⟩, ⟨1, 3, 1⟩, ⟨0, 5, 0⟩]⟩ ∧
      recursion.Secure [2, 1] ⟨2, [⟨1, 0, 1⟩, ⟨1, 3, 1⟩, ⟨0, 5, 0⟩]⟩ := by
  have hfirst : ({ types := recursion.types } : Stack.Validator).validate 0
      #[0x5f, 0x5f, 0xb0, 0, 1, 0x50, 0x50, 0x00] = .ok 2 :=
    Stack.Validator.validate_eq_ok_iff.mpr
      ⟨⟨0, 0, none⟩, rfl, Body.result_of_runFor 20 (by decide +kernel), by decide⟩
  have hsecond : ({ types := recursion.types } : Stack.Validator).validate 1
      #[0xb0, 0, 1, 0xb1] = .ok 1 :=
    Stack.Validator.validate_eq_ok_iff.mpr
      ⟨⟨1, 1, none⟩, rfl, Body.result_of_runFor 20 (by decide +kernel), by decide⟩
  have hresults : ({ types := recursion.types } : Verifier).resultsFrom 0 recursion.sections =
      [.ok 2, .ok 1] := by
    rw [show recursion.sections = [#[0x5f, 0x5f, 0xb0, 0, 1, 0x50, 0x50, 0x00], #[0xb0, 0, 1, 0xb1]]
      from rfl]
    simp only [resultsFrom, verifyFunction, hfirst, Nat.zero_add, hsecond]
    rfl
  have hverify : ({ types := recursion.types } : Verifier).verify recursion.sections =
      .ok ⟨[2, 1]⟩ := by
    rw [verify_of_checkLayout rfl, hresults]
    rfl
  have hpush : ∀ height f, recursion.Fetches f ⟨f.offset, .plain 0x5f "push0" 0 1, []⟩ →
      recursion.Step ⟨height, [f]⟩ ⟨height + 1, [{ f with offset := f.offset + 1 }]⟩ :=
    fun height f hfetch => .goes hfetch (by simp [Opcode.plain]) (.next rfl)
  have hcall : ∀ f rest, recursion.Fetches f ⟨f.offset, ⟨0xb0, "callf", 0, 0, 2, .call⟩, [0, 1]⟩ →
      recursion.Step ⟨2, f :: rest⟩ ⟨2, ⟨1, 0, 1⟩ :: { f with offset := f.offset + 3 } :: rest⟩ :=
    fun f rest hfetch => .calls hfetch rfl (show recursion.types[1]? = some ⟨1, 1, none⟩ from rfl)
  have hreachable : recursion.Reachable ⟨2, [⟨1, 0, 1⟩, ⟨1, 3, 1⟩, ⟨0, 5, 0⟩]⟩ :=
    (((Relation.ReflTransGen.refl.tail (hpush 0 ⟨0, 0, 0⟩ ⟨_, rfl, by decide +kernel⟩)).tail
      (hpush 1 ⟨0, 1, 0⟩ ⟨_, rfl, by decide +kernel⟩)).tail
      (hcall ⟨0, 2, 0⟩ [] ⟨_, rfl, by decide +kernel⟩)).tail
      (hcall ⟨1, 0, 1⟩ [⟨0, 5, 0⟩] ⟨_, rfl, by decide +kernel⟩)
  exact ⟨hverify, hreachable, secure_of_verify hverify hreachable⟩

end Verifier

end EofStack
