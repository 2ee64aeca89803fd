import EofStack.Proofs.Structured.Layout

/-!
# Heights along a structured program

In a structured program the height of the stack can be read off the rows from top to bottom,
whatever the jumps between them are: each command changes it by its effect, and all marks and jumps
stand where the stack is empty (`Balanced`).

The heights that are read off are the only ones that execution can arrive with
(`Closed.reach_cases`).  At the end of the rows there may be one more, since jumps to the end leave
the stack empty while the rows may leave something there.
-/

namespace EofStack.Structured

open Assembly Stack

/-! ## Commands -/

/-- The function under test takes nothing and leaves nothing; the one that is called takes two
items and leaves one. -/
def types : TypeTable := #[⟨0, 0, none⟩, ⟨2, 1, none⟩]

/-- The code as that of the function under test. -/
def body (code : Code) : Body :=
  ⟨types, ⟨0, 0, none⟩, code⟩

def Command.effect : Command → Effect
  | call => ⟨2, -1⟩
  | c => ⟨c.opcode.required, c.opcode.change⟩

variable {labels : Labels} {code : Code} {c : Command} {i : Instruction}

namespace Runs

theorem hasEffect (h : Runs labels c i) : HasEffect types i c.effect := by
  have hown : c.effect = ⟨c.opcode.required, c.opcode.change⟩ → c.opcode.flow ≠ .call →
      HasEffect types i c.effect := by
    intro heffect hflow
    rw [heffect, ← h.opcode]
    exact .own (Instruction.callee?_eq_none (h.opcode ▸ hflow))
  cases c with
  | call =>
      have hcall : HasEffect types i _ := .call (h.callee rfl) rfl
      rw [h.opcode] at hcall
      exact hcall
  | push | add | pop | jump | branch | table | stop => exact hown rfl nofun

/-- Control goes to the next row, unless the command ends the program or is a jump, and to the
targets of the command. -/
theorem leads_iff (h : Runs labels c i) {target : Nat} :
    Leads i target ↔ c.opcode.isTerminating = false ∧ target = i.next ∨
      ∃ label ∈ c.targets, labels.lookup label.text = some target := by
  rw [Stack.leads_iff, h.opcode]
  refine or_congr Iff.rfl ⟨?_, ?_⟩
  · rintro ⟨d, hd, htarget⟩
    obtain ⟨k, hk⟩ := List.mem_iff_getElem?.mp hd
    obtain ⟨label, hlabel, target', hlookup, rfl⟩ := exists_getElem?_eq h.displacements.flip hk
    have heq : target = target' := by omega
    exact ⟨label, List.mem_of_getElem? hlabel, heq ▸ hlookup⟩
  · rintro ⟨label, hlabel, hlookup⟩
    obtain ⟨k, hk⟩ := List.mem_iff_getElem?.mp hlabel
    obtain ⟨d, hd, target', hlookup', rfl⟩ := exists_getElem?_eq h.displacements hk
    cases hlookup.symm.trans hlookup'
    exact ⟨_, List.mem_of_getElem? hd, by omega⟩

theorem safe (h : Runs labels c i) {height : Nat} (henough : c.effect.required ≤ height)
    (hstop : c = .stop → height = 0) : Safe (body code) i c.effect height where
  enough := henough
  targets d hd := by
    obtain ⟨k, hk⟩ := List.mem_iff_getElem?.mp hd
    obtain ⟨label, -, target, -, rfl⟩ := exists_getElem?_eq h.displacements.flip hk
    omega
  halt hflow := by
    rw [h.opcode] at hflow
    cases c with
    | stop =>
        rw [hstop rfl]
        rfl
    | push | add | pop | call | jump | branch | table => cases hflow
  ret hflow := by
    rw [h.opcode] at hflow
    cases c <;> cases hflow

end Runs

/-! ## Heights -/

/-- Read from top to bottom, the rows change the height of the stack from the first to the last.
No command asks for more items than there are, no height is above the bound, and marks and jumps
find the stack empty and leave it so. -/
inductive Balanced (bound : Nat) : Nat → List Row → Nat → Prop
  | nil {height : Nat} : Balanced bound height [] height
  | mark {label : Label} {rows : List Row} {last : Nat} (hrest : Balanced bound 0 rows last) :
      Balanced bound 0 (.mark label :: rows) last
  | command {c : Command} {rows : List Row} {height height' last : Nat} (hstop : c ≠ .stop)
      (henough : c.effect.required ≤ height) (hheight : (height' : Int) = height + c.effect.change)
      (htargets : c.targets ≠ [] → height' = 0) (hbefore : height ≤ bound) (hafter : height' ≤ bound)
      (hrest : Balanced bound height' rows last) : Balanced bound height (.command c :: rows) last

variable {bound : Nat} {rows others before after : List Row}
  {height height' last middle offset stop : Nat}

namespace Balanced

theorem mono {bound' : Nat} (h : Balanced bound height rows last) (hle : bound ≤ bound') :
    Balanced bound' height rows last := by
  induction h with
  | nil => exact .nil
  | mark _ ih => exact .mark ih
  | command hstop henough hheight htargets hbefore hafter _ ih =>
      exact .command hstop henough hheight htargets (Nat.le_trans hbefore hle)
        (Nat.le_trans hafter hle) ih

theorem append (h : Balanced bound height rows middle) (hothers : Balanced bound middle others last) :
    Balanced bound height (rows ++ others) last := by
  induction h with
  | nil => exact hothers
  | mark _ ih => exact .mark (ih hothers)
  | command hstop henough hheight htargets hbefore hafter _ ih =>
      exact .command hstop henough hheight htargets hbefore hafter (ih hothers)

theorem split (h : Balanced bound height (rows ++ others) last) :
    ∃ middle, Balanced bound height rows middle ∧ Balanced bound middle others last := by
  induction rows generalizing height with
  | nil => exact ⟨height, .nil, h⟩
  | cons row rows ih =>
      cases h with
      | mark hrest =>
          obtain ⟨middle, hrows, hothers⟩ := ih hrest
          exact ⟨middle, .mark hrows, hothers⟩
      | command hstop henough hheight htargets hbefore hafter hrest =>
          obtain ⟨middle, hrows, hothers⟩ := ih hrest
          exact ⟨middle, .command hstop henough hheight htargets hbefore hafter hrows, hothers⟩

theorem unique {last' : Nat} (h : Balanced bound height rows last)
    (h' : Balanced bound height rows last') : last = last' := by
  induction h with
  | nil =>
      cases h'
      rfl
  | mark _ ih =>
      cases h' with
      | mark hrest => exact ih hrest
  | command _ _ hheight _ _ _ _ ih =>
      cases h' with
      | command _ _ hheight' _ _ _ hrest =>
          obtain rfl := Int.ofNat_inj.mp (hheight.trans hheight'.symm)
          exact ih hrest

/-- Rows that take up no room do not change the height. -/
theorem eq_of_laid (h : Balanced bound height rows last) (hlaid : Laid labels code offset rows offset) :
    height = last := by
  induction h with
  | nil => rfl
  | mark _ ih =>
      cases hlaid with
      | mark _ hrest => exact ih hrest
  | command =>
      cases hlaid with
      | @command _ _ i _ _ hdecode _ hrest =>
          have hlt := i.offset_lt_next
          have hle := hrest.le
          rw [Code.offset_of_decodeAt hdecode] at hlt
          omega

end Balanced

/-! ## Spots -/

/-- The offset and the height that the rows have come to somewhere on the way down. -/
def Spot (labels : Labels) (code : Code) (bound : Nat) (rows : List Row) (offset height : Nat) :
    Prop :=
  ∃ before after, rows = before ++ after ∧ Laid labels code 0 before offset ∧
    Balanced bound 0 before height

/-- No spot has two heights. -/
theorem Spot.height_unique (h : Spot labels code bound rows offset height)
    (h' : Spot labels code bound rows offset height') : height = height' := by
  obtain ⟨before, after, heq, hlaid, hbalanced⟩ := h
  obtain ⟨before', after', rfl, hlaid', hbalanced'⟩ := h'
  -- one of the ways down goes on from the end of the other without taking up room
  have hlonger : ∀ {short long : List Row} {height height'}, short <+: long →
      Laid labels code 0 short offset → Balanced bound 0 short height →
      Laid labels code 0 long offset → Balanced bound 0 long height' → height = height' := by
    rintro short _ height height' ⟨between, rfl⟩ hshort hheight hlong hheight'
    obtain ⟨middle, hmiddle, hbetween⟩ := hlong.split
    obtain rfl := hmiddle.unique hshort
    obtain ⟨height'', hheight'', hrest⟩ := hheight'.split
    obtain rfl := hheight''.unique hheight
    exact hrest.eq_of_laid hbetween
  rcases List.prefix_or_prefix_of_prefix (heq ▸ List.prefix_append before after)
      (List.prefix_append before' after') with hprefix | hprefix
  · exact hlonger hprefix hlaid hbalanced hlaid' hbalanced'
  · exact (hlonger hprefix hlaid' hbalanced' hlaid hbalanced).symm

/-- Behind marks, there is a command or the end of the rows. -/
theorem exists_command (hlaid : Laid labels code offset rows stop)
    (hbalanced : Balanced bound height rows last) :
    offset = stop ∧ height = last ∨ ∃ marks c rest, rows = marks ++ .command c :: rest ∧
      Laid labels code offset marks offset ∧ Balanced bound height marks height ∧
      Laid labels code offset (.command c :: rest) stop ∧
      Balanced bound height (.command c :: rest) last := by
  induction hlaid generalizing height with
  | nil =>
      cases hbalanced
      exact Or.inl ⟨rfl, rfl⟩
  | mark hlookup _ ih =>
      cases hbalanced with
      | mark hrest =>
          rcases ih hrest with hend | ⟨marks, c, rest, rfl, hlaid, hmarks, hcommand⟩
          · exact Or.inl hend
          · exact Or.inr ⟨_ :: marks, c, rest, rfl, .mark hlookup hlaid, .mark hmarks, hcommand⟩
  | command hdecode hruns hrest =>
      exact Or.inr ⟨[], _, _, rfl, .nil, .nil, .command hdecode hruns hrest, hbalanced⟩

/-! ## Whole programs -/

/-- The rows stand at the beginning of the code and are balanced, the program stops behind them,
and every label stands for a mark among the rows or for the end. -/
structure Closed (labels : Labels) (code : Code) (bound : Nat) (rows : List Row)
    (stop last : Nat) : Prop where
  laid : Laid labels code 0 rows stop
  balanced : Balanced bound 0 rows last
  stops : ∃ i, code.decodeAt stop = .ok i ∧ Runs labels .stop i
  marked : ∀ label target, labels.lookup label = some target →
    Marked labels code 0 rows target ∨ target = stop

namespace Closed

/-- At a mark, the height that has been read off is zero. -/
theorem spot_of_marked (h : Closed labels code bound rows stop last)
    (hmarked : Marked labels code 0 rows offset) : Spot labels code bound rows offset 0 := by
  obtain ⟨before, label, after, rfl, hbefore⟩ := hmarked
  obtain ⟨height, hheight, hrest⟩ := h.balanced.split
  cases hrest
  exact ⟨before, _, rfl, hbefore, hheight⟩

/-- What stands at a spot before the end. -/
theorem exists_of_spot (h : Closed labels code bound rows stop last)
    (hspot : Spot labels code bound rows offset height) :
    offset = stop ∧ height = last ∨ ∃ c i, code.decodeAt offset = .ok i ∧ Runs labels c i ∧
      Safe (body code) i c.effect height ∧ height ≤ bound ∧
      ∃ height' : Nat, (height' : Int) = height + c.effect.change ∧ height' ≤ bound ∧
        (c.targets ≠ [] → height' = 0) ∧ Spot labels code bound rows i.next height' := by
  obtain ⟨before, after, rfl, hbefore, hheight⟩ := hspot
  obtain ⟨middle, hmiddle, hafter⟩ := h.laid.split
  obtain rfl := hmiddle.unique hbefore
  obtain ⟨height'', hheight'', hbalanced⟩ := h.balanced.split
  obtain rfl := hheight''.unique hheight
  rcases exists_command hafter hbalanced with
    hend | ⟨marks, c, rest, rfl, hlaid, hmarks, hcommand, hbalanced⟩
  · exact Or.inl hend
  cases hcommand with
  | command hdecode hruns hrest =>
  cases hbalanced with
  | command hstop henough hchange htargets hle hle' =>
      have hsafe : Safe (body code) _ _ _ := hruns.safe henough fun heq => absurd heq hstop
      refine Or.inr ⟨c, _, hdecode, hruns, hsafe, hle, _, hchange, hle', htargets,
        before ++ marks ++ [.command c], rest, by simp, ?_, ?_⟩
      · exact (hbefore.append hlaid).append (.command hdecode hruns .nil)
      · exact (hheight.append hmarks).append
          (.command hstop henough hchange htargets hle hle' .nil)

/-- Execution arrives with the height that is read off, or with an empty stack at the end. -/
theorem reach_cases (h : Closed labels code bound rows stop last)
    (hreach : Reach (body code) offset height) :
    Spot labels code bound rows offset height ∨ offset = stop ∧ height = 0 := by
  induction hreach with
  | entry => exact Or.inl ⟨[], rows, rfl, .nil, .nil⟩
  | @step offset height target height' i e _ hdecode heffect _ hheight hleads ih =>
      have hend : offset ≠ stop := by
        rintro rfl
        obtain ⟨i', hdecode', hruns⟩ := h.stops
        cases hdecode.symm.trans hdecode'
        rcases hruns.leads_iff.mp hleads with ⟨hterminating, -⟩ | ⟨label, hlabel, -⟩
        · cases hterminating
        · cases hlabel
      obtain hspot | ⟨heq, -⟩ := ih
      · rcases h.exists_of_spot hspot with
          ⟨heq, -⟩ | ⟨c, i', hdecode', hruns, -, -, height'', hheight'', -, htargets, hnext⟩
        · exact absurd heq hend
        cases hdecode.symm.trans hdecode'
        rw [heffect.unique hruns.hasEffect, ← hheight''] at hheight
        obtain rfl := Int.ofNat_inj.mp hheight
        rcases hruns.leads_iff.mp hleads with ⟨-, rfl⟩ | ⟨label, hlabel, hlookup⟩
        · exact Or.inl hnext
        · rw [htargets (List.ne_nil_of_mem hlabel)]
          refine (h.marked _ _ hlookup).imp h.spot_of_marked ?_
          intro heq
          exact ⟨heq, rfl⟩
      · exact absurd heq hend

/-- The height at the end of the rows is the last one. -/
theorem eq_last_of_spot (h : Closed labels code bound rows stop last)
    (hspot : Spot labels code bound rows stop height) : height = last :=
  hspot.height_unique ⟨rows, [], (List.append_nil _).symm, h.laid, h.balanced⟩

/-- The program stops with an empty stack. -/
theorem safe_stop (h : Closed labels code bound rows stop last) :
    ∃ i e, code.decodeAt stop = .ok i ∧ HasEffect types i e ∧ Safe (body code) i e 0 ∧
      e.change = 0 := by
  obtain ⟨i, hdecode, hruns⟩ := h.stops
  exact ⟨i, _, hdecode, hruns.hasEffect, hruns.safe (Nat.le_refl 0) fun _ => rfl, rfl⟩

end Closed

end EofStack.Structured
