import Mathlib.Data.List.Forall2

/-!
# Collecting results

A list of items is worked off one by one, and the first that fails decides.  `mapM_eq_ok_iff`
and `mapM_eq_error_iff` say what is known of the items in either case.
-/

namespace EofStack

variable {α β ε : Type} {f : α → Except ε β}

theorem map_eq_ok_iff {x : Except ε α} {g : α → β} {result : β} :
    x.map g = .ok result ↔ ∃ a, x = .ok a ∧ g a = result := by
  cases x <;> simp [Except.map]

theorem map_eq_error_iff {x : Except ε α} {g : α → β} {e : ε} :
    x.map g = .error e ↔ x = .error e := by
  cases x <;> simp [Except.map]

/-- If every outcome is described, and only as what it is, then the descriptions are exact. -/
theorem eq_ok_iff_of_described {x : Except ε α} {P : α → Prop} {Q : ε → Prop}
    (hok : ∀ a, P a → x = .ok a) (herror : ∀ e, Q e → x = .error e)
    (h : (∃ a, P a) ∨ ∃ e, Q e) {a : α} : x = .ok a ↔ P a := by
  refine ⟨fun hx => ?_, hok a⟩
  rcases h with ⟨a', hP⟩ | ⟨e, hQ⟩
  · cases (hok a' hP).symm.trans hx
    exact hP
  · cases (herror e hQ).symm.trans hx

theorem eq_error_iff_of_described {x : Except ε α} {P : α → Prop} {Q : ε → Prop}
    (hok : ∀ a, P a → x = .ok a) (herror : ∀ e, Q e → x = .error e)
    (h : (∃ a, P a) ∨ ∃ e, Q e) {e : ε} : x = .error e ↔ Q e := by
  refine ⟨fun hx => ?_, herror e⟩
  rcases h with ⟨a, hP⟩ | ⟨e', hQ⟩
  · cases (hok a hP).symm.trans hx
  · cases (herror e' hQ).symm.trans hx
    exact hQ

theorem mapM_cons_except (item : α) (items : List α) :
    (item :: items).mapM f =
      match f item with
      | .error e => .error e
      | .ok result => (items.mapM f).map (result :: ·) := by
  rw [List.mapM_cons]
  cases f item with
  | error e => rfl
  | ok result => cases items.mapM f <;> rfl

/-- All items succeed exactly if each does. -/
theorem mapM_eq_ok_iff {items : List α} {results : List β} :
    items.mapM f = .ok results ↔
      List.Forall₂ (fun item result => f item = .ok result) items results := by
  induction items generalizing results with
  | nil =>
      rw [List.mapM_nil, List.forall₂_nil_left_iff]
      exact ⟨fun h => by cases h; rfl, fun h => by rw [h]; rfl⟩
  | cons item items ih =>
      rw [mapM_cons_except, List.forall₂_cons_left_iff]
      constructor
      · intro h
        split at h
        · cases h
        next result hresult =>
        cases hrest : items.mapM f with
        | error e => rw [hrest] at h; cases h
        | ok rest =>
            rw [hrest] at h
            cases h
            exact ⟨result, rest, hresult, ih.mp hrest, rfl⟩
      · rintro ⟨result, rest, hresult, hrest, rfl⟩
        simp only [hresult, ih.mpr hrest]
        rfl

/-- Collecting fails with the error of the first item that fails. -/
theorem mapM_eq_error_iff {items : List α} {e : ε} :
    items.mapM f = .error e ↔
      ∃ (k : Nat) (item : α), items[k]? = some item ∧ f item = .error e ∧
        ∀ j < k, ∀ other, items[j]? = some other → ∃ result, f other = .ok result := by
  induction items with
  | nil => exact iff_of_false (by rintro ⟨⟩) (by simp)
  | cons head tail ih =>
      rw [mapM_cons_except]
      cases hhead : f head with
      | error e' =>
          constructor
          · rintro ⟨⟩
            exact ⟨0, head, rfl, hhead, fun j hj => absurd hj j.not_lt_zero⟩
          · -- the first item fails, so none behind it does so first
            rintro ⟨_ | k, item, hitem, hfail, hbefore⟩
            · cases hitem
              cases hhead.symm.trans hfail
              rfl
            · obtain ⟨result, hresult⟩ := hbefore 0 k.succ_pos head rfl
              rw [hhead] at hresult
              cases hresult
      | ok result =>
          rw [map_eq_error_iff, ih]
          constructor
          · rintro ⟨k, item, hitem, hfail, hbefore⟩
            refine ⟨k + 1, item, hitem, hfail, ?_⟩
            rintro (_ | j) hj other hother
            · cases hother
              exact ⟨result, hhead⟩
            · exact hbefore j (Nat.lt_of_succ_lt_succ hj) other hother
          · rintro ⟨_ | k, item, hitem, hfail, hbefore⟩
            · cases hitem
              rw [hhead] at hfail
              cases hfail
            · exact ⟨k, item, hitem, hfail, fun j hj => hbefore (j + 1) (Nat.succ_lt_succ hj)⟩

/-- If collecting fails, an item does. -/
theorem exists_of_mapM_eq_error {items : List α} {e : ε} (h : items.mapM f = .error e) :
    ∃ item ∈ items, f item = .error e := by
  obtain ⟨k, item, hitem, hfail, -⟩ := mapM_eq_error_iff.mp h
  exact ⟨item, List.mem_of_getElem? hitem, hfail⟩

/-- What is kept of a list keeps its order. -/
theorem exists_of_getElem?_filterMap {γ : Type} {g : γ → Option α} {items : List γ} {m : Nat}
    {x : α} (h : (items.filterMap g)[m]? = some x) :
    ∃ (k : Nat) (item : γ), items[k]? = some item ∧ g item = some x ∧
      ∀ j < k, ∀ other y, items[j]? = some other → g other = some y →
        ∃ i < m, (items.filterMap g)[i]? = some y := by
  induction items generalizing m with
  | nil => cases h
  | cons head tail ih =>
      cases hhead : g head with
      | none =>
          rw [List.filterMap_cons_none hhead] at h ⊢
          obtain ⟨k, item, hitem, hx, hbefore⟩ := ih h
          refine ⟨k + 1, item, hitem, hx, ?_⟩
          rintro (_ | j) hj other y hother hy
          · cases hother
            rw [hhead] at hy
            cases hy
          · exact hbefore j (Nat.lt_of_succ_lt_succ hj) other y hother hy
      | some first =>
          rw [List.filterMap_cons_some hhead] at h ⊢
          cases m with
          | zero =>
              cases h
              exact ⟨0, head, rfl, hhead, fun j hj => absurd hj j.not_lt_zero⟩
          | succ m =>
              obtain ⟨k, item, hitem, hx, hbefore⟩ := ih h
              refine ⟨k + 1, item, hitem, hx, ?_⟩
              rintro (_ | j) hj other y hother hy
              · cases hother
                exact ⟨0, m.succ_pos, hhead.symm.trans hy⟩
              · obtain ⟨i, hi, hplace⟩ := hbefore j (Nat.lt_of_succ_lt_succ hj) other y hother hy
                exact ⟨i + 1, Nat.succ_lt_succ hi, hplace⟩

/-- What is kept of an item stands behind what is kept of the items in front of it. -/
theorem getElem?_filterMap_of_eq {γ : Type} {g : γ → Option α} {items : List γ} {k : Nat} {item : γ}
    {x : α} (hitem : items[k]? = some item) (hx : g item = some x) :
    (items.filterMap g)[((items.take k).filterMap g).length]? = some x := by
  obtain ⟨hk, rfl⟩ := List.getElem?_eq_some_iff.mp hitem
  have hsplit : items.filterMap g =
      (items.take k).filterMap g ++ x :: (items.drop (k + 1)).filterMap g :=
    calc items.filterMap g
        = (items.take k ++ items.drop k).filterMap g := by rw [List.take_append_drop]
      _ = (items.take k).filterMap g ++ (items[k] :: items.drop (k + 1)).filterMap g := by
        rw [List.filterMap_append, List.drop_eq_getElem_cons hk]
      _ = _ := by rw [List.filterMap_cons_some hx]
  rw [hsplit]
  simp

/-- Items that are left out do not matter to which one fails first. -/
theorem exists_of_mapM_filterMap_eq_error {γ : Type} {g : γ → Option α} {items : List γ} {e : ε}
    (h : (items.filterMap g).mapM f = .error e) :
    ∃ (k : Nat) (item : γ) (x : α), items[k]? = some item ∧ g item = some x ∧ f x = .error e ∧
      ∀ j < k, ∀ other y, items[j]? = some other → g other = some y →
        ∃ result, f y = .ok result := by
  obtain ⟨m, x, hx, hfail, hbefore⟩ := mapM_eq_error_iff.mp h
  obtain ⟨k, item, hitem, hkept, hearlier⟩ := exists_of_getElem?_filterMap hx
  refine ⟨k, item, x, hitem, hkept, hfail, fun j hj other y hother hy => ?_⟩
  obtain ⟨i, hi, hplace⟩ := hearlier j hj other y hother hy
  exact hbefore i hi y hplace

/-- Results may be worked on after all of them have been collected. -/
theorem mapM_map_except {γ : Type} (g : β → γ) (items : List α) :
    (items.mapM fun item => (f item).map g) = (items.mapM f).map (List.map g) := by
  induction items with
  | nil => rfl
  | cons item items ih =>
      rw [mapM_cons_except, mapM_cons_except, ih]
      cases f item with
      | error e => rfl
      | ok result => cases items.mapM f <;> rfl

/-- What stands at a place of one list is matched by what stands there in the other. -/
theorem exists_getElem?_eq {R : α → β → Prop} {items : List α} {results : List β}
    (h : List.Forall₂ R items results) {k : Nat} {item : α} (hk : items[k]? = some item) :
    ∃ result, results[k]? = some result ∧ R item result := by
  induction h generalizing k with
  | nil => cases hk
  | @cons item _ _ _ hhead _ ih =>
      cases k with
      | zero =>
          cases hk
          exact ⟨_, rfl, hhead⟩
      | succ k => exact ih hk

/-- If all items have a result, each has its own. -/
theorem mapM_eq_some {g : α → Option β} {items : List α} {results : List β}
    (h : items.mapM g = some results) :
    List.Forall₂ (fun item result => g item = some result) items results := by
  induction items generalizing results with
  | nil =>
      cases h
      exact .nil
  | cons item items ih =>
      rw [List.mapM_cons] at h
      obtain ⟨result, hresult, h⟩ := Option.bind_eq_some_iff.mp h
      obtain ⟨rest, hrest, h⟩ := Option.bind_eq_some_iff.mp h
      cases h
      exact .cons hresult (ih hrest)

theorem mapM_of_forall₂ {g : α → Option β} {items : List α} {results : List β}
    (h : List.Forall₂ (fun item result => g item = some result) items results) :
    items.mapM g = some results := by
  induction h with
  | nil => rfl
  | cons hhead _ ih =>
      rw [List.mapM_cons, hhead, ih]
      rfl

/-! ## The first of the kept items that fails -/

/-- The first of the kept items that fails does so with this error. -/
def FailsFirst (keep : α → Bool) (f : α → Except ε β) (items : List α) (e : ε) : Prop :=
  ∃ before item after, items = before ++ item :: after ∧
    (∀ other ∈ before, keep other = true → ∃ result, f other = .ok result) ∧
    keep item = true ∧ f item = .error e

/-- An item that does not fail, or that is not kept, does not matter. -/
theorem failsFirst_cons_of_ok {keep : α → Bool} {head : α} {tail : List α} {e : ε}
    (hhead : keep head = true → ∃ result, f head = .ok result) :
    FailsFirst keep f (head :: tail) e ↔ FailsFirst keep f tail e := by
  constructor
  · rintro ⟨before, item, after, hitems, hbefore, hkeep, hfail⟩
    obtain ⟨rfl, hcons⟩ | ⟨rest, rfl, htail⟩ := List.cons_eq_append_iff.mp hitems
    · obtain ⟨rfl, rfl⟩ := List.cons.inj hcons
      obtain ⟨result, hresult⟩ := hhead hkeep
      rw [hfail] at hresult
      cases hresult
    · exact ⟨rest, item, after, htail,
        fun other hother => hbefore other (List.mem_cons_of_mem _ hother), hkeep, hfail⟩
  · rintro ⟨before, item, after, rfl, hbefore, hkeep, hfail⟩
    exact ⟨head :: before, item, after, rfl, List.forall_mem_cons.mpr ⟨hhead, hbefore⟩, hkeep,
      hfail⟩

/-- Items that are not kept do not matter to which one fails first. -/
theorem mapM_filter_eq_error_iff {keep : α → Bool} {items : List α} {e : ε} :
    (items.filter keep).mapM f = .error e ↔ FailsFirst keep f items e := by
  induction items with
  | nil =>
      refine iff_of_false nofun ?_
      rintro ⟨before, item, after, hitems, -⟩
      exact absurd hitems.symm (List.append_ne_nil_of_right_ne_nil _ (List.cons_ne_nil _ _))
  | cons head tail ih =>
      by_cases hkeep : keep head = true
      · rw [List.filter_cons_of_pos hkeep, mapM_cons_except]
        cases hhead : f head with
        | ok result => rw [map_eq_error_iff, ih, failsFirst_cons_of_ok fun _ => ⟨result, hhead⟩]
        | error e' =>
            constructor
            · rintro ⟨⟩
              exact ⟨[], head, tail, rfl, List.forall_mem_nil _, hkeep, hhead⟩
            · rintro ⟨before, item, after, hitems, hbefore, -, hfail⟩
              obtain ⟨rfl, hcons⟩ | ⟨rest, rfl, -⟩ := List.cons_eq_append_iff.mp hitems
              · obtain ⟨rfl, rfl⟩ := List.cons.inj hcons
                obtain rfl := Except.error.inj (hhead.symm.trans hfail)
                rfl
              · obtain ⟨result, hresult⟩ := hbefore head List.mem_cons_self hkeep
                rw [hhead] at hresult
                cases hresult
      · rw [List.filter_cons_of_neg hkeep, ih, failsFirst_cons_of_ok fun h => absurd h hkeep]

end EofStack
