import EofStack.Proofs.Instruction
import EofStack.Stack.Rule

/-!
# What execution can reach

The heights that the stack of a function can have, said without a walk.  `Reach body p h` holds
if some execution arrives at offset `p` with `h` items: it starts at offset `0` with the inputs,
and an instruction that finds the items it requires leads to each of its successors, with the
height changed by its effect.

`Safe` says what has to hold of one instruction at one height, and `Violates` which violation
there is if it does not.  The second half of the file shows that `Body.inspect` and
`Body.execute` decide just that.
-/

namespace EofStack.Stack

/-! ## Effects and successors -/

/-- The effect of an instruction.  A call also requires the inputs of its callee, and replaces
them by the outputs; a call of a function that does not exist has no effect at all. -/
inductive HasEffect (types : TypeTable) (i : Instruction) : Effect → Prop
  | own (hcallee : i.callee? = none) : HasEffect types i ⟨i.opcode.required, i.opcode.change⟩
  | call {callee : Nat} {type : FunctionType} (hcallee : i.callee? = some callee)
      (htype : types[callee]? = some type) :
      HasEffect types i ⟨i.opcode.required + type.inputs.toNat,
        i.opcode.change + ((type.outputs.toNat : Int) - type.inputs.toNat)⟩

/-- Control may go from the instruction to the offset. -/
inductive Leads (i : Instruction) : Nat → Prop
  | next (hflow : i.opcode.isTerminating = false) : Leads i i.next
  | target {displacement : Int} {offset : Nat} (hmem : displacement ∈ i.displacements)
      (hoffset : (offset : Int) = i.next + displacement) : Leads i offset

/-- Some execution of the function arrives at the offset with that many items. -/
inductive Reach (body : Body) : Nat → Nat → Prop
  | entry : Reach body 0 body.type.inputs.toNat
  | step {offset height target height' : Nat} {i : Instruction} {e : Effect}
      (hreach : Reach body offset height) (hdecode : body.code.decodeAt offset = .ok i)
      (heffect : HasEffect body.types i e) (henough : e.required ≤ height)
      (hheight : (height' : Int) = height + e.change) (hleads : Leads i target) :
      Reach body target height'

/-! ## Safety of one instruction -/

/-- Nothing is wrong with an instruction at a height. -/
structure Safe (body : Body) (i : Instruction) (e : Effect) (height : Nat) : Prop where
  enough : e.required ≤ height
  targets : ∀ displacement ∈ i.displacements, 0 ≤ (i.next : Int) + displacement
  /-- The end of the program leaves nothing. -/
  halt : i.opcode.flow = .halt → (height : Int) + e.change = 0
  /-- A return leaves what the function declares. -/
  ret : i.opcode.flow = .ret → (height : Int) + e.change = body.type.outputs.toNat

/-- What is wrong with an instruction at a height. -/
inductive Violates (body : Body) (i : Instruction) (e : Effect) (height : Nat) : Violation → Prop
  | underflow (hfew : height < e.required) :
      Violates body i e height (.underflow i.offset i.opcode.mnemonic e.required height)
  | negativeTarget {displacement : Int} (hmem : displacement ∈ i.displacements)
      (hneg : (i.next : Int) + displacement < 0) :
      Violates body i e height
        (.malformed i.offset (.undecodable (.negativeTarget i.offset (i.next + displacement))))
  | itemsLeft {left : Nat} (hflow : i.opcode.flow = .halt)
      (hleft : (left : Int) = height + e.change) (hne : left ≠ 0) :
      Violates body i e height (.itemsLeft i.offset i.opcode.mnemonic left)
  | returnArity {left : Nat} (hflow : i.opcode.flow = .ret)
      (hleft : (left : Int) = height + e.change) (hne : left ≠ body.type.outputs.toNat) :
      Violates body i e height (.returnArity i.offset body.type.outputs.toNat left)

variable {body : Body} {i : Instruction} {e : Effect} {height : Nat}

theorem Violates.not_safe {violation : Violation} (h : Violates body i e height violation) :
    ¬ Safe body i e height := by
  intro hsafe
  cases h with
  | underflow hfew => exact Nat.not_le_of_lt hfew hsafe.enough
  | negativeTarget hmem hneg => exact Int.not_le.mpr hneg (hsafe.targets _ hmem)
  | itemsLeft hflow hleft hne =>
      rw [hsafe.halt hflow] at hleft
      exact hne (Int.ofNat_inj.mp hleft)
  | returnArity hflow hleft hne =>
      rw [hsafe.ret hflow] at hleft
      exact hne (Int.ofNat_inj.mp hleft)

theorem HasEffect.unique {types : TypeTable} {e' : Effect} (h : HasEffect types i e)
    (h' : HasEffect types i e') : e = e' := by
  cases h with
  | own hnone =>
      cases h' with
      | own => rfl
      | call hsome => rw [hnone] at hsome; cases hsome
  | call hsome htype =>
      cases h' with
      | own hnone => rw [hnone] at hsome; cases hsome
      | call hsome' htype' =>
          rw [hsome, Option.some.injEq] at hsome'
          subst hsome'
          rw [htype, Option.some.injEq] at htype'
          rw [htype']

/-- The callee of an instruction with an effect is in the table. -/
theorem HasEffect.callee_lt {types : TypeTable} (h : HasEffect types i e) {callee : Nat}
    (hcallee : i.callee? = some callee) : callee < types.size := by
  cases h with
  | own hnone => cases hnone.symm.trans hcallee
  | call hsome htype =>
      cases hsome.symm.trans hcallee
      exact (Array.getElem?_eq_some_iff.mp htype).1

/-- With the items that it requires, an instruction leaves no negative height. -/
theorem HasEffect.change_nonneg {types : TypeTable} (hmem : i.opcode ∈ Opcode.table)
    (h : HasEffect types i e) (henough : e.required ≤ height) :
    0 ≤ (height : Int) + e.change := by
  have hown := Opcode.required_add_change_nonneg hmem
  cases h with
  | own => simp only at henough ⊢; omega
  | call => simp only at henough ⊢; omega

theorem leads_iff {target : Nat} :
    Leads i target ↔ i.opcode.isTerminating = false ∧ target = i.next ∨
      ∃ displacement ∈ i.displacements, (target : Int) = i.next + displacement := by
  constructor
  · rintro (hflow | ⟨hmem, hoffset⟩)
    · exact Or.inl ⟨hflow, rfl⟩
    · exact Or.inr ⟨_, hmem, hoffset⟩
  · rintro (⟨hflow, rfl⟩ | ⟨_, hmem, hoffset⟩)
    · exact .next hflow
    · exact .target hmem hoffset

/-- Where targets are defined, control goes to them, and to the next instruction unless that is
out of reach. -/
theorem leads_iff_of_targets {targets : List Nat} (h : i.targets = .ok targets) {target : Nat} :
    Leads i target ↔
      i.opcode.isTerminating = false ∧ target = i.next ∨ target ∈ targets := by
  rw [leads_iff, (Instruction.targets_spec h).2]

/-! ## The rule decides safety -/

/-- The effect that is computed is the one that the instruction has; it fails only for want of a
callee. -/
theorem effect_spec (types : TypeTable) (i : Instruction) :
    (∃ e, effect types i = .ok e ∧ HasEffect types i e) ∨
      ∃ callee, i.callee? = some callee ∧ types.size ≤ callee ∧
        effect types i = .error (.malformed i.offset (.unknownCallee callee types.size)) := by
  unfold effect
  split
  · next hnone => exact Or.inl ⟨_, rfl, .own hnone⟩
  · next callee hsome =>
    cases htype : types[callee]? with
    | some type => exact Or.inl ⟨_, rfl, .call hsome htype⟩
    | none => exact Or.inr ⟨callee, hsome, Array.getElem?_eq_none_iff.mp htype, rfl⟩

theorem hasEffect_of_effect {types : TypeTable} (h : effect types i = .ok e) :
    HasEffect types i e := by
  rcases effect_spec types i with ⟨e', heq, heffect⟩ | ⟨callee, -, -, heq⟩
  · rw [heq, Except.ok.injEq] at h
    exact h ▸ heffect
  · rw [heq] at h
    cases h

theorem Body.effect_of_inspect {offset : Nat} (h : body.inspect offset = .ok (i, e)) :
    effect body.types i = .ok e := by
  unfold inspect at h
  split at h
  · cases h
  · obtain ⟨e', he, heq⟩ := map_eq_ok_iff.mp h
    cases heq
    exact he

/-- An instruction that is found has an effect, and otherwise there is none at the offset, or
none with the callee it names. -/
theorem inspect_spec (body : Body) (offset : Nat) :
    (∃ i e, body.inspect offset = .ok (i, e) ∧ body.code.decodeAt offset = .ok i ∧
        HasEffect body.types i e) ∨
      (∃ error, body.code.decodeAt offset = .error error ∧
        body.inspect offset = .error (.malformed offset (.undecodable error))) ∨
      ∃ i callee, body.code.decodeAt offset = .ok i ∧ i.callee? = some callee ∧
        body.types.size ≤ callee ∧
        body.inspect offset =
          .error (.malformed offset (.unknownCallee callee body.types.size)) := by
  unfold Body.inspect
  cases hdecode : body.code.decodeAt offset with
  | error error => exact Or.inr (Or.inl ⟨error, rfl, rfl⟩)
  | ok i =>
      rcases effect_spec body.types i with ⟨e, heq, he⟩ | ⟨callee, hcallee, hsize, heq⟩
      · exact Or.inl ⟨i, e, by simp only [heq]; rfl, rfl, he⟩
      · refine Or.inr (Or.inr ⟨i, callee, rfl, hcallee, hsize, ?_⟩)
        simp only [heq, Code.offset_of_decodeAt hdecode]
        rfl

/-- What the result of executing an instruction has to say: that it is safe, how high the stack
is behind it and where control goes, or else what it violates. -/
def Describes (body : Body) (i : Instruction) (e : Effect) (height : Nat) :
    Except Violation Exits → Prop
  | .ok exits => Safe body i e height ∧ (exits.height : Int) = height + e.change ∧
      ∀ target, target ∈ exits.successors ↔ Leads i target
  | .error violation => Violates body i e height violation

/-- An instruction that finds its items and holds no displacement violates nothing but what the
ends of the code demand. -/
private theorem safe_of_not_jump (hjump : i.opcode.isJump = false) (henough : e.required ≤ height)
    (hhalt : i.opcode.flow = .halt → (height : Int) + e.change = 0)
    (hret : i.opcode.flow = .ret → (height : Int) + e.change = body.type.outputs.toNat) :
    Safe body i e height where
  enough := henough
  targets := by simp [Instruction.displacements_eq_nil hjump]
  halt := hhalt
  ret := hret

private theorem targets_cases (body : Body) (i : Instruction) (e : Effect) (height : Nat) :
    (∃ ts, i.targets = .ok ts ∧ targets i = .ok ts) ∨
      ∃ violation, targets i = .error violation ∧ Violates body i e height violation := by
  unfold targets
  cases htargets : i.targets with
  | ok ts => exact Or.inl ⟨ts, rfl, rfl⟩
  | error error =>
      obtain ⟨d, hmem, hneg, rfl⟩ := Instruction.exists_of_targets_eq_error htargets
      exact Or.inr ⟨_, rfl, .negativeTarget hmem hneg⟩

private theorem exists_targets_eq (hwell : i.WellFormed) (hflow : i.opcode.flow = .jump)
    {ts : List Nat} (h : i.targets = .ok ts) : ∃ target, ts = [target] := by
  obtain ⟨d, hd⟩ := Instruction.exists_displacements_eq hwell (Or.inl hflow)
  rw [Instruction.targets, hd] at h
  obtain ⟨target, rest, -, hrest, rfl⟩ := List.forall₂_cons_left_iff.mp (mapM_eq_ok_iff.mp h)
  rw [List.forall₂_nil_left_iff.mp hrest]
  exact ⟨target, rfl⟩

/-- Leaving an instruction that found its items, with `left` of them. -/
theorem exitsAt_spec (hwell : i.WellFormed) (henough : e.required ≤ height) {left : Nat}
    (hleft : (left : Int) = height + e.change) :
    Describes body i e height (exitsAt body.type.outputs.toNat i left) := by
  unfold exitsAt
  -- jumps fail by their targets, the ends of the code by the height, and nothing else fails
  cases hflow : i.opcode.flow with
  | jump =>
      rcases targets_cases body i e height with ⟨ts, hts, heq⟩ | ⟨violation, heq, hviolates⟩
      · obtain ⟨target, rfl⟩ := exists_targets_eq hwell hflow hts
        have hsafe : Safe body i e height :=
          ⟨henough, (Instruction.targets_spec hts).1, by simp [hflow], by simp [hflow]⟩
        simp only [heq]
        refine ⟨hsafe, hleft, ?_⟩
        intro q
        simp [leads_iff_of_targets hts, Exits.successors, Opcode.isTerminating, hflow]
      · simp only [heq]
        exact hviolates
  | branch | table =>
      rcases targets_cases body i e height with ⟨ts, hts, heq⟩ | ⟨violation, heq, hviolates⟩
      · have hsafe : Safe body i e height :=
          ⟨henough, (Instruction.targets_spec hts).1, by simp [hflow], by simp [hflow]⟩
        simp only [heq]
        refine ⟨hsafe, hleft, ?_⟩
        intro q
        simp [leads_iff_of_targets hts, Exits.successors, Opcode.isTerminating, hflow]
      · simp only [heq]
        exact hviolates
  | halt =>
      have hjump : i.opcode.isJump = false := by simp [Opcode.isJump, hflow]
      by_cases hzero : left = 0
      · simp only [if_pos hzero]
        refine ⟨safe_of_not_jump hjump henough (by omega) (by simp [hflow]), hleft, fun q => ?_⟩
        simp [leads_iff, Exits.successors, Opcode.isTerminating, hflow,
          Instruction.displacements_eq_nil hjump]
      · simp only [if_neg hzero]
        exact .itemsLeft hflow hleft hzero
  | ret =>
      have hjump : i.opcode.isJump = false := by simp [Opcode.isJump, hflow]
      by_cases hout : left = body.type.outputs.toNat
      · simp only [if_pos hout]
        refine ⟨safe_of_not_jump hjump henough (by simp [hflow]) (by omega), hleft, fun q => ?_⟩
        simp [leads_iff, Exits.successors, Opcode.isTerminating, hflow,
          Instruction.displacements_eq_nil hjump]
      · simp only [if_neg hout]
        exact .returnArity hflow hleft hout
  | straight | call =>
      have hjump : i.opcode.isJump = false := by simp [Opcode.isJump, hflow]
      refine ⟨safe_of_not_jump hjump henough (by simp [hflow]) (by simp [hflow]), hleft,
        fun q => ?_⟩
      simp [leads_iff, Exits.successors, Opcode.isTerminating, hflow,
        Instruction.displacements_eq_nil hjump, eq_comm]

/-- Executing an instruction is safe and leads to all its successors, or it fails with what the
instruction violates. -/
theorem execute_spec (hwell : i.WellFormed) (heffect : HasEffect body.types i e) (height : Nat) :
    Describes body i e height (body.execute i e height) := by
  unfold Body.execute
  by_cases henough : e.required ≤ height
  · -- the height is a natural number again before anything else is decided
    have hnonneg := heffect.change_nonneg hwell.mem_table henough
    obtain ⟨left, hleft⟩ := Int.eq_ofNat_of_zero_le hnonneg
    rw [if_neg (by omega), hleft, Int.toNat_natCast]
    exact exitsAt_spec hwell henough hleft.symm
  · rw [if_pos (by omega)]
    exact .underflow (by omega)

end EofStack.Stack
