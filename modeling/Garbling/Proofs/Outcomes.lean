-- How a computation that may fail succeeds: each of its steps does. The
-- laws below take a success apart, and put one together.
import Garbling.KeyArray
import Garbling.Rejection

namespace Garbling

variable {α β ε ε' : Type}

/-! ## Single steps -/

theorem bind_eq_ok {x : Except ε α} {f : α → Except ε β} {b : β} :
    (x >>= f) = .ok b ↔ ∃ a, x = .ok a ∧ f a = .ok b := by
  cases x with
  | error e => simp [bind, Except.bind]
  | ok a => simp [bind, Except.bind]

/-- A check succeeds, and so does what comes after it. -/
theorem check_bind_eq_ok {x : Except ε Unit} {y : Except ε β} {b : β} :
    (x >>= fun _ => y) = .ok b ↔ x = .ok () ∧ y = .ok b := by
  rw [bind_eq_ok]
  exact ⟨fun ⟨_, h⟩ => h, fun h => ⟨(), h⟩⟩

@[simp] theorem ok_bind (a : α) (f : α → Except ε β) : (Except.ok a >>= f) = f a := rfl

@[simp] theorem pure_eq_ok {a b : α} : (pure a : Except ε α) = .ok b ↔ a = b := by
  simp [pure, Except.pure]

@[simp] theorem throw_ne_ok {e : ε} {b : α} : (throw e : Except ε α) = .ok b ↔ False := by
  simp [throw, throwThe, MonadExceptOf.throw]

/-- A guard lets a computation go on only where its condition fails. -/
theorem guard_eq_ok {p : Prop} [Decidable p] {e : ε} {x : Except ε α} {b : α} :
    (if p then throw e else x) = .ok b ↔ ¬ p ∧ x = .ok b := by
  by_cases h : p <;> simp [h]

theorem mapError_eq_ok {f : ε → ε'} {x : Except ε α} {a : α} :
    x.mapError f = .ok a ↔ x = .ok a := by
  cases x with
  | error e => exact ⟨fun h => (nomatch h), fun h => (nomatch h)⟩
  | ok b =>
    refine ⟨fun h => ?_, fun h => ?_⟩
    · exact congrArg Except.ok (Except.ok.inj h)
    · exact congrArg Except.ok (Except.ok.inj h)

theorem toOption_eq_some {x : Except ε α} {a : α} : x.toOption = some a ↔ x = .ok a := by
  cases x <;> simp [Except.toOption]

theorem inRange_eq_ok {x : Option α} {a : α} : inRange x = .ok a ↔ x = some a := by
  cases x <;> simp [inRange]

theorem auditRange_eq_ok {x : Option α} {a : α} : auditRange x = .ok a ↔ x = some a := by
  cases x <;> simp [auditRange]

theorem KeyArray.checkLength_eq_ok {keys : Bytes} {expected : Nat} :
    checkLength keys expected = .ok () ↔ keys.length = expected := by
  unfold checkLength
  split <;> simp [*]

/-! ## A step for each element of a list -/

/-- All steps succeed, and the results are theirs, in order. -/
theorem mapM_eq_ok {f : α → Except ε β} {l : List α} {bs : List β} :
    l.mapM f = .ok bs ↔ l.map f = bs.map .ok := by
  induction l generalizing bs with
  | nil => cases bs <;> simp
  | cons a l ih =>
    rw [List.mapM_cons, bind_eq_ok, List.map_cons]
    constructor
    · rintro ⟨b, hb, h⟩
      obtain ⟨bs', hbs', h⟩ := bind_eq_ok.1 h
      rw [pure_eq_ok] at h
      rw [← h, List.map_cons, hb, ih.1 hbs']
    · intro h
      cases bs with
      | nil => simp at h
      | cons b bs' =>
        rw [List.map_cons, List.cons.injEq] at h
        refine ⟨b, h.1, ?_⟩
        rw [ih.2 h.2]
        rfl

theorem mapM_ok {f : α → Except ε β} {g : α → β} {l : List α} (h : ∀ a ∈ l, f a = .ok (g a)) :
    l.mapM f = .ok (l.map g) := by
  rw [mapM_eq_ok, List.map_map]
  exact List.map_congr_left h

theorem mapM_some {f : α → Option β} {g : α → β} {l : List α} (h : ∀ a ∈ l, f a = some (g a)) :
    l.mapM f = some (l.map g) := by
  induction l with
  | nil => rfl
  | cons a l ih =>
    rw [List.mapM_cons, h a List.mem_cons_self, ih fun b hb => h b (List.mem_cons_of_mem _ hb)]
    rfl

/-- Over the numbers below `n`, the result at each of them is that of its step. -/
theorem mapM_range_eq_ok {f : Nat → Except ε β} {n : Nat} {bs : List β} :
    (List.range n).mapM f = .ok bs ↔ bs.length = n ∧ ∀ i (h : i < bs.length), f i = .ok bs[i] := by
  rw [mapM_eq_ok]
  constructor
  · intro h
    have hlen : bs.length = n := by
      have := congrArg List.length h
      simpa using this.symm
    refine ⟨hlen, fun i hi => ?_⟩
    have hget : ((List.range n).map f)[i]? = (bs.map Except.ok)[i]? := by rw [h]
    simpa [hi, hlen ▸ hi] using hget
  · rintro ⟨rfl, h⟩
    apply List.ext_getElem
    · simp
    · intro i h1 h2
      simpa using h i (by simpa using h2)

theorem forM_eq_ok {f : α → Except ε Unit} {l : List α} :
    forM l f = .ok () ↔ ∀ a ∈ l, f a = .ok () := by
  induction l with
  | nil => simp
  | cons a l ih =>
    rw [List.forM_cons, bind_eq_ok, List.forall_mem_cons]
    constructor
    · rintro ⟨⟨⟩, ha, h⟩
      exact ⟨ha, ih.1 h⟩
    · rintro ⟨ha, h⟩
      exact ⟨(), ha, ih.2 h⟩

/-- Over the numbers below `n`, the first step that fails gives its error. -/
theorem forM_range_eq_error {f : Nat → Except ε Unit} {n i : Nat} {e : ε} (hi : i < n)
    (hbefore : ∀ j < i, f j = .ok ()) (he : f i = .error e) :
    forM (List.range n) f = .error e := by
  induction n with
  | zero => omega
  | succ n ih =>
    rw [List.range_succ, List.forM_append]
    rcases Nat.lt_or_ge i n with hin | hin
    · rw [ih hin]
      rfl
    · have hlast : i = n := by omega
      subst hlast
      rw [forM_eq_ok.2 fun j hj => hbefore j (List.mem_range.1 hj), ok_bind, List.forM_cons, he]
      rfl

/-! ## Errors that a computation does not give -/

/-- The computation does not fail with this error. -/
def Avoids (e : ε) (x : Except ε α) : Prop := x ≠ .error e

theorem avoids_ok (e : ε) (a : α) : Avoids e (Except.ok a) := by
  intro h
  cases h

theorem avoids_throw {e e' : ε} (h : e' ≠ e) : Avoids e (throw e' : Except ε α) :=
  fun he => h (Except.error.inj he)

/-- An error that is passed on was another one before. -/
theorem Avoids.rethrow {e e' : ε} {x : Except ε α} (hx : Avoids e x) (h : x = .error e') :
    Avoids e (throw e' : Except ε β) :=
  avoids_throw fun he => hx (h.trans (congrArg Except.error he))

theorem avoids_of_eq_ok {e : ε} {x : Except ε α} {a : α} (h : x = .ok a) : Avoids e x := by
  rw [h]
  exact avoids_ok e a

/-- The second step only has to avoid the error after a success of the first one. -/
theorem Avoids.bind_of_ok {e : ε} {x : Except ε α} {f : α → Except ε β} (hx : Avoids e x)
    (hf : ∀ a, x = .ok a → Avoids e (f a)) : Avoids e (x >>= f) := by
  cases x with
  | error e' => exact hx.rethrow rfl
  | ok a => exact hf a rfl

theorem Avoids.bind {e : ε} {x : Except ε α} {f : α → Except ε β} (hx : Avoids e x)
    (hf : ∀ a, Avoids e (f a)) : Avoids e (x >>= f) := hx.bind_of_ok fun a _ => hf a

theorem Avoids.map {e : ε} {x : Except ε α} (hx : Avoids e x) (f : α → β) : Avoids e (x.map f) := by
  cases x with
  | error e' => exact hx.rethrow rfl
  | ok a => exact avoids_ok e (f a)

/-- A guard may throw the error itself where its condition cannot hold. -/
theorem Avoids.guard_of_imp {p : Prop} [Decidable p] {e e' : ε} {x : Except ε α}
    (hne : e' = e → ¬ p) (hx : ¬ p → Avoids e x) : Avoids e (if p then throw e' else x) := by
  split
  · exact avoids_throw fun h => hne h ‹_›
  · exact hx ‹_›

theorem Avoids.guard_of_not {p : Prop} [Decidable p] {e e' : ε} {x : Except ε α} (hne : e' ≠ e)
    (hx : ¬ p → Avoids e x) : Avoids e (if p then throw e' else x) :=
  .guard_of_imp (fun h => absurd h hne) hx

theorem Avoids.guard {p : Prop} [Decidable p] {e e' : ε} {x : Except ε α} (hne : e' ≠ e)
    (hx : Avoids e x) : Avoids e (if p then throw e' else x) := .guard_of_not hne fun _ => hx

theorem avoids_mapError {f : ε → ε'} {e : ε'} (h : ∀ cause, f cause ≠ e) (x : Except ε α) :
    Avoids e (x.mapError f) := by
  cases x with
  | error cause => exact avoids_throw (h cause)
  | ok a => exact avoids_ok e a

theorem Avoids.mapM_of_mem {e : ε} {f : α → Except ε β} {l : List α}
    (h : ∀ a ∈ l, Avoids e (f a)) : Avoids e (l.mapM f) := by
  induction l with
  | nil => exact avoids_ok e []
  | cons a l ih =>
    rw [List.mapM_cons]
    have hrest := ih fun b hb => h b (List.mem_cons_of_mem _ hb)
    exact (h a List.mem_cons_self).bind fun b => hrest.bind fun bs => avoids_ok e (b :: bs)

theorem Avoids.mapM {e : ε} {f : α → Except ε β} (h : ∀ a, Avoids e (f a)) (l : List α) :
    Avoids e (l.mapM f) := .mapM_of_mem fun a _ => h a

theorem Avoids.forM_of_mem {e : ε} {f : α → Except ε Unit} {l : List α}
    (h : ∀ a ∈ l, Avoids e (f a)) : Avoids e (forM l f) := by
  induction l with
  | nil => exact avoids_ok e ()
  | cons a l ih =>
    rw [List.forM_cons]
    have hrest := ih fun b hb => h b (List.mem_cons_of_mem _ hb)
    exact (h a List.mem_cons_self).bind fun _ => hrest

end Garbling
