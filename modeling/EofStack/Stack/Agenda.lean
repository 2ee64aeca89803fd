/-!
# An agenda

Items to be dealt with in order.  New ones can be put in front of all others or behind them;
the next one is always taken from the front.

The back of the agenda is kept in reverse so that both ends are cheap.  `toList` is the view in
which the operations are plain list operations.
-/

namespace EofStack

/-- Items to be dealt with, the ones at the back in reverse. -/
structure Agenda (α : Type) where
  front : List α
  back : List α := []
deriving Repr

namespace Agenda

variable {α : Type}

/-- The items in the order in which they will be taken. -/
def toList (agenda : Agenda α) : List α :=
  agenda.front ++ agenda.back.reverse

/-- The agenda with `items` behind all others. -/
def append (agenda : Agenda α) (items : List α) : Agenda α :=
  { agenda with back := items.reverse ++ agenda.back }

/-- The agenda with `items` in front of all others. -/
def prepend (items : List α) (agenda : Agenda α) : Agenda α :=
  { agenda with front := items ++ agenda.front }

/-- The first item and the agenda without it. -/
def pop? (agenda : Agenda α) : Option (α × Agenda α) :=
  match agenda.front with
  | item :: front => some (item, { agenda with front })
  | [] => match agenda.back.reverse with
    | item :: front => some (item, { front })
    | [] => none

@[simp] theorem toList_append (agenda : Agenda α) (items : List α) :
    (agenda.append items).toList = agenda.toList ++ items := by
  simp [append, toList]

@[simp] theorem toList_prepend (agenda : Agenda α) (items : List α) :
    (prepend items agenda).toList = items ++ agenda.toList := by
  simp [prepend, toList]

theorem toList_eq_nil_of_pop? {agenda : Agenda α} (h : agenda.pop? = none) :
    agenda.toList = [] := by
  unfold pop? at h
  split at h
  · cases h
  · next hfront =>
    split at h
    · cases h
    · next hback => simp [toList, hfront, hback]

theorem toList_of_pop? {agenda rest : Agenda α} {item : α} (h : agenda.pop? = some (item, rest)) :
    agenda.toList = item :: rest.toList := by
  unfold pop? at h
  split at h
  · next hfront => cases h; simp [toList, hfront]
  · next hfront =>
    split at h
    · next hback => cases h; simp [toList, hfront, hback]
    · cases h

/-- The first item of the view is the one that is taken. -/
theorem exists_pop?_eq {agenda : Agenda α} {item : α} {items : List α}
    (h : agenda.toList = item :: items) :
    ∃ rest : Agenda α, agenda.pop? = some (item, rest) ∧ rest.toList = items := by
  cases hpop : agenda.pop? with
  | none =>
    rw [toList_eq_nil_of_pop? hpop] at h
    cases h
  | some taken =>
    obtain ⟨first, rest⟩ := taken
    rw [toList_of_pop? hpop, List.cons.injEq] at h
    obtain ⟨rfl, hrest⟩ := h
    exact ⟨rest, rfl, hrest⟩

end Agenda

end EofStack
