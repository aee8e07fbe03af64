-- What holds through a whole session. It is enough to look at one
-- request: if every answer is good in any state then all answers of a
-- session are, two states that stay alike answer alike to the end, and
-- what every refusal keeps lasts as long as no request is granted.
import Garbling.Session

namespace Garbling.Session

variable {C R A C' R' A' Q : Type}

/-- What holds of each answer, in any state, holds of all answers of a session. -/
theorem answers_all {respond : C → R → A × C} {Good : A → Prop}
    (h : ∀ c r, Good (respond c r).1) (c : C) (rs : List R) :
    ∀ a ∈ answers respond c rs, Good a := by
  induction rs generalizing c with
  | nil =>
    intro a ha
    cases ha
  | cons r rs ih =>
    intro a ha
    rcases List.mem_cons.1 ha with rfl | ha
    · exact h c r
    · exact ih _ a ha

/-- Two states are asked the same questions, each in its own words. If every question keeps
them alike and is answered alike, then the answers of whole sessions are alike. -/
theorem answers_alike {respond : C → R → A × C} {respond' : C' → R' → A' × C'}
    (Alike : C → C' → Prop) (ask : Q → R) (ask' : Q → R') (show' : A → A')
    (hstep : ∀ c c' q, Alike c c' → (respond' c' (ask' q)).1 = show' (respond c (ask q)).1 ∧
      Alike (respond c (ask q)).2 (respond' c' (ask' q)).2)
    {c : C} {c' : C'} (h : Alike c c') (qs : List Q) :
    answers respond' c' (qs.map ask') = (answers respond c (qs.map ask)).map show' := by
  induction qs generalizing c c' with
  | nil => rfl
  | cons q qs ih =>
    obtain ⟨hanswer, halike⟩ := hstep c c' q h
    simp only [List.map_cons, answers, hanswer, ih halike]

/-- Two states are asked the same and cannot be told apart by a single request. -/
theorem answers_eq {respond : C → R → A × C} {respond' : C' → R → A × C'}
    (Alike : C → C' → Prop)
    (hstep : ∀ c c' r, Alike c c' → (respond' c' r).1 = (respond c r).1 ∧
      Alike (respond c r).2 (respond' c' r).2)
    {c : C} {c' : C'} (h : Alike c c') (rs : List R) :
    answers respond' c' rs = answers respond c rs := by
  simpa only [List.map_id] using answers_alike Alike id id id hstep h rs

/-! ## Requests that are granted -/

variable {ε : Type}

/-- One of the requests that `picks` picks is granted. -/
def Granted (respond : C → R → Except ε A × C) (picks : R → Bool) (c : C) (rs : List R) : Prop :=
  ∃ before r later, rs = before ++ r :: later ∧ picks r = true ∧
    ∃ a, (respond (after respond c before) r).1 = .ok a

theorem granted_of_head {respond : C → R → Except ε A × C} {picks : R → Bool} {c : C} {r : R}
    {a : A} (hr : picks r = true) (ha : (respond c r).1 = .ok a) (rs : List R) :
    Granted respond picks c (r :: rs) := ⟨[], r, rs, rfl, hr, a, ha⟩

theorem Granted.cons {respond : C → R → Except ε A × C} {picks : R → Bool} {c : C} {r : R}
    {rs : List R} (h : Granted respond picks (respond c r).2 rs) :
    Granted respond picks c (r :: rs) := by
  obtain ⟨before, r', later, rfl, hr, a, ha⟩ := h
  exact ⟨r :: before, r', later, rfl, hr, a, ha⟩

/-- What every request keeps that is not picked or not granted, holds after a session in which no
picked request is granted. -/
theorem after_of_not_granted {respond : C → R → Except ε A × C} {picks : R → Bool}
    (Inv : C → Prop) (hstep : ∀ c r, Inv c → ¬ (picks r = true ∧ ∃ a, (respond c r).1 = .ok a) →
      Inv (respond c r).2) {c : C} (h : Inv c) {rs : List R}
    (hno : ¬ Granted respond picks c rs) : Inv (after respond c rs) := by
  induction rs generalizing c with
  | nil => exact h
  | cons r rs ih =>
    refine ih (hstep c r h ?_) fun hrest => hno hrest.cons
    rintro ⟨hr, a, ha⟩
    exact hno (granted_of_head hr ha rs)

end Garbling.Session
