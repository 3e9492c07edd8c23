import QueryGrammar.Change
/-!
Outcomes and changes taken apart. A change keeps a property of the state when each change it is
made of does, whether it is accepted or refused.
-/
namespace QueryGrammar

theorem toOption_eq_some_iff {ε α : Type} {x : Except ε α} {a : α} :
    x.toOption = some a ↔ x = .ok a := by
  cases x <;> simp [Except.toOption]

theorem exists_of_isOk {ε α : Type} {x : Except ε α} (h : x.isOk = true) : ∃ a, x = .ok a := by
  cases x with
  | ok a => exact ⟨a, rfl⟩
  | error e => simp [Except.isOk, Except.toBool] at h

namespace Outcome

variable {α β : Type}

theorem bind_eq_ok_iff {x : Outcome α} {f : α → Outcome β} {b : β} :
    (x >>= f) = .ok b ↔ ∃ a, x = .ok a ∧ f a = .ok b := by
  cases x with
  | error e => simp [bind, Except.bind]
  | ok a => simp [bind, Except.bind]

theorem ok_of_bind {x : Outcome α} {f : α → Outcome β} {b : β} (h : (x >>= f) = .ok b) :
    ∃ a, x = .ok a ∧ f a = .ok b := bind_eq_ok_iff.mp h

theorem map_eq_ok_iff {x : Outcome α} {f : α → β} {b : β} :
    (f <$> x) = .ok b ↔ ∃ a, x = .ok a ∧ f a = b := by
  cases x with
  | error e => simp [Functor.map, Except.map]
  | ok a => simp [Functor.map, Except.map]

/-- A refusal under a condition, and what follows it. -/
theorem guard_eq_ok_iff {c : Prop} [Decidable c] {e : BuildError} {f : Unit → Outcome β} {b : β} :
    (if c then throw e >>= f else f ()) = .ok b ↔ ¬ c ∧ f () = .ok b := by
  split
  next hc => simp [hc, throw, throwThe, MonadExceptOf.throw, bind, Except.bind]
  next hc => simp [hc]

theorem unless_eq_ok_iff {c : Prop} [Decidable c] {e : BuildError} {x : Outcome β} {b : β} :
    (if c then x else (throw e : Outcome Unit) >>= fun _ => x) = .ok b ↔ c ∧ x = .ok b := by
  split
  next hc => simp [hc]
  next hc => simp [hc, throw, throwThe, MonadExceptOf.throw, bind, Except.bind]

/-- A refusal under a condition, with nothing after it. -/
theorem refusal_eq_ok_iff {c : Prop} [Decidable c] {e : BuildError} :
    (if c then throw e else pure () : Outcome Unit) = .ok () ↔ ¬ c := by
  split
  next hc => simp [hc, throw, throwThe, MonadExceptOf.throw]
  next hc => simp [hc, pure, Except.pure]

/-- A check over a list is passed when each item passes. -/
theorem forM_eq_ok_iff {f : α → Outcome Unit} {xs : List α} :
    xs.forM f = .ok () ↔ ∀ x ∈ xs, f x = .ok () := by
  induction xs with
  | nil => simp [List.forM, pure, Except.pure]
  | cons x xs ih =>
    rw [List.forall_mem_cons, ← ih]
    refine (bind_eq_ok_iff (f := fun _ => xs.forM f)).trans ?_
    exact ⟨fun ⟨_, hx, hxs⟩ => ⟨hx, hxs⟩, fun ⟨hx, hxs⟩ => ⟨(), hx, hxs⟩⟩

/-- A list of outcomes succeeds with the values of all. -/
theorem mapM_id_eq_ok_iff {xs : List (Outcome α)} {ys : List α} :
    xs.mapM id = .ok ys ↔ xs = ys.map .ok := by
  induction xs generalizing ys with
  | nil =>
    constructor
    · rintro ⟨⟩
      rfl
    · intro h
      rw [List.map_eq_nil_iff.mp h.symm]
      rfl
  | cons x xs ih =>
    rw [List.mapM_cons]
    simp only [bind_eq_ok_iff, ih, id]
    constructor
    · rintro ⟨y, rfl, zs, rfl, h⟩
      cases h
      rfl
    · intro h
      obtain ⟨y, zs, rfl, rfl, rfl⟩ := List.map_eq_cons_iff.mp h.symm
      exact ⟨y, rfl, zs, rfl, rfl⟩

/-! Two computations that agree up to renaming step by step agree as a whole. -/

theorem map_bind_eq {γ δ : Type} {x : Outcome α} {g : α → β} {f : α → Outcome γ}
    {f' : β → Outcome δ} {h : γ → δ} (hf : ∀ a, x = .ok a → f' (g a) = (f a).map h) :
    (x.map g >>= f') = (x >>= f).map h := by
  cases x with
  | error e => rfl
  | ok a => exact hf a rfl

theorem forM_map_eq {g : α → β} {f : α → Outcome Unit} {f' : β → Outcome Unit} {xs : List α}
    (hf : ∀ x ∈ xs, f' (g x) = f x) : (xs.map g).forM f' = xs.forM f := by
  induction xs with
  | nil => rfl
  | cons x xs ih =>
    rw [List.forall_mem_cons] at hf
    change (f' (g x) >>= fun _ => (xs.map g).forM f') = (f x >>= fun _ => xs.forM f)
    rw [hf.1, ih hf.2]

theorem mapM_eq_map_mapM {γ : Type} {g : β → γ} {f : α → Outcome β} {f' : α → Outcome γ}
    {xs : List α} (hf : ∀ x ∈ xs, f' x = (f x).map g) :
    xs.mapM f' = (xs.mapM f).map (List.map g) := by
  induction xs with
  | nil => rfl
  | cons x xs ih =>
    rw [List.forall_mem_cons] at hf
    rw [List.mapM_cons, List.mapM_cons, hf.1, ih hf.2]
    apply map_bind_eq
    intro y _
    apply map_bind_eq
    intro ys _
    rfl

theorem exists_of_mem_mapM {f : α → Outcome β} {xs : List α} {ys : List β}
    (h : xs.mapM f = .ok ys) : ∀ y ∈ ys, ∃ x ∈ xs, f x = .ok y := by
  induction xs generalizing ys with
  | nil =>
    cases h
    simp
  | cons x xs ih =>
    rw [List.mapM_cons] at h
    simp only [bind_eq_ok_iff] at h
    obtain ⟨b, hb, bs, hbs, h⟩ := h
    cases h
    intro y hy
    rcases List.mem_cons.mp hy with rfl | hy
    · exact ⟨x, by simp, hb⟩
    · obtain ⟨z, hz, hfz⟩ := ih hbs y hy
      exact ⟨z, by simp [hz], hfz⟩

end Outcome

namespace Change

variable {σ τ α β : Type}

@[simp] theorem perform_pure (a : α) (s : σ) : (pure a : Change σ α).perform s = (.ok a, s) := rfl

@[simp] theorem perform_throw (e : BuildError) (s : σ) :
    (throw e : Change σ α).perform s = (.error e, s) := rfl

@[simp] theorem perform_get (s : σ) : (get : Change σ σ).perform s = (.ok s, s) := rfl

@[simp] theorem perform_set (s t : σ) : (set t : Change σ PUnit).perform s = (.ok ⟨⟩, t) := rfl

@[simp] theorem perform_modify (f : σ → σ) (s : σ) :
    (modify f : Change σ PUnit).perform s = (.ok ⟨⟩, f s) := rfl

@[simp] theorem perform_ofOutcome (x : Outcome α) (s : σ) : (ofOutcome x).perform s = (x, s) := rfl

theorem perform_bind (x : Change σ α) (f : α → Change σ β) (s : σ) :
    (x >>= f).perform s = match x.perform s with
      | (.ok a, t) => (f a).perform t
      | (.error e, t) => (.error e, t) := by
  change ExceptT.bindCont f (x.perform s).1 (x.perform s).2 = _
  cases x.perform s with
  | mk outcome t => cases outcome <;> rfl

theorem perform_map (f : α → β) (x : Change σ α) (s : σ) :
    (f <$> x).perform s = match x.perform s with
      | (.ok a, t) => (.ok (f a), t)
      | (.error e, t) => (.error e, t) := by
  rw [map_eq_pure_bind, perform_bind]
  cases x.perform s with
  | mk outcome t => cases outcome <;> rfl

theorem exists_perform_of_isOk {x : Change σ α} {s : σ} (h : (x.perform s).1.isOk = true) :
    ∃ a t, x.perform s = (.ok a, t) := by
  obtain ⟨a, ha⟩ := exists_of_isOk h
  exact ⟨a, (x.perform s).2, Prod.ext ha rfl⟩

theorem exists_of_not_isOk {x : Change σ α} {s : σ} (h : (x.perform s).1.isOk = false) :
    ∃ err, x.perform s = (.error err, (x.perform s).2) := by
  cases hx : x.perform s with
  | mk outcome t =>
    rw [hx] at h
    cases outcome with
    | ok a => cases h
    | error err => exact ⟨err, rfl⟩

theorem perform_call (f : σ → Outcome (α × σ)) (s : σ) :
    (call f).perform s = match f s with
      | .ok (a, t) => (.ok a, t)
      | .error e => (.error e, s) := by
  rw [call, perform_bind, perform_get]
  simp only
  rw [perform_bind, perform_ofOutcome]
  cases f s <;> rfl

@[simp] theorem perform_observe (x : Change σ α) (s : σ) :
    x.observe.perform s = (.ok (x.perform s).1, (x.perform s).2) := rfl

@[simp] theorem perform_within (part : τ → σ) (replace : τ → σ → τ) (x : Change σ α) (t : τ) :
    (x.within part replace).perform t =
      ((x.perform (part t)).1, replace t (x.perform (part t)).2) := rfl

theorem perform_bind_eq_ok_iff {x : Change σ α} {f : α → Change σ β} {s u : σ} {b : β} :
    (x >>= f).perform s = (.ok b, u) ↔
      ∃ a t, x.perform s = (.ok a, t) ∧ (f a).perform t = (.ok b, u) := by
  rw [perform_bind]
  cases hx : x.perform s with
  | mk outcome t =>
    cases outcome with
    | error err => simp
    | ok a =>
      constructor
      · exact fun h => ⟨a, t, rfl, h⟩
      · rintro ⟨_, _, heq, h⟩
        cases heq
        exact h

theorem perform_call_eq_ok_iff {f : σ → Outcome (α × σ)} {s t : σ} {a : α} :
    (call f).perform s = (.ok a, t) ↔ f s = .ok (a, t) := by
  rw [perform_call]
  cases hf : f s with
  | error e => simp
  | ok p =>
    obtain ⟨b, u⟩ := p
    simp

/-- Whatever the outcome, the state has the property afterwards if it had it before. -/
def Keeps (P : σ → Prop) (x : Change σ α) : Prop := ∀ s, P s → P (x.perform s).2

namespace Keeps

variable {P : σ → Prop}

theorem pure (a : α) : Keeps P (Pure.pure a : Change σ α) := fun _ h => h

theorem throw (e : BuildError) : Keeps P (MonadExcept.throw e : Change σ α) := fun _ h => h

theorem get : Keeps P (MonadState.get : Change σ σ) := fun _ h => h

theorem modify {f : σ → σ} (h : ∀ s, P s → P (f s)) :
    Keeps P (modify f : Change σ PUnit) := fun s hs => h s hs

theorem ofOutcome (x : Outcome α) : Keeps P (Change.ofOutcome x) := fun _ h => h

/-- The rest may rely on how the first step has come out. -/
theorem bind_at {x : Change σ α} {f : α → Change σ β} {s : σ} (hx : P (x.perform s).2)
    (hf : ∀ a t, x.perform s = (.ok a, t) → P t → P ((f a).perform t).2) :
    P ((x >>= f).perform s).2 := by
  rw [perform_bind]
  cases hp : x.perform s with
  | mk outcome t =>
    rw [hp] at hx
    cases outcome with
    | ok a => exact hf a t hp hx
    | error e => exact hx

theorem bind {x : Change σ α} {f : α → Change σ β} (hx : Keeps P x) (hf : ∀ a, Keeps P (f a)) :
    Keeps P (x >>= f) := fun s hs => bind_at (hx s hs) fun a t _ ht => hf a t ht

theorem map {x : Change σ α} (f : α → β) (h : Keeps P x) : Keeps P (f <$> x) := by
  rw [map_eq_pure_bind]
  exact bind h fun _ => Keeps.pure _

theorem observe {x : Change σ α} (h : Keeps P x) : Keeps P x.observe := fun s hs => h s hs

theorem call {f : σ → Outcome (α × σ)} (h : ∀ s a t, P s → f s = .ok (a, t) → P t) :
    Keeps P (Change.call f) := by
  intro s hs
  rw [perform_call]
  cases hf : f s with
  | error e => exact hs
  | ok p => exact h s p.1 p.2 hs hf

theorem forM {f : α → Change σ PUnit} {xs : List α} (h : ∀ x ∈ xs, Keeps P (f x)) :
    Keeps P (xs.forM f) := by
  induction xs with
  | nil => exact Keeps.pure PUnit.unit
  | cons x xs ih =>
    exact Keeps.bind (h x (by simp)) fun _ => ih fun y hy => h y (by simp [hy])

end Keeps

/-- If the change is refused, the state has the property afterwards that it had before. -/
def KeepsRefused (P : σ → Prop) (x : Change σ α) : Prop :=
  ∀ s e t, P s → x.perform s = (.error e, t) → P t

theorem KeepsRefused.bind {P : σ → Prop} {x : Change σ α} {f : α → Change σ β} (hx : Keeps P x)
    (hf : ∀ a, KeepsRefused P (f a)) : KeepsRefused P (x >>= f) := by
  intro s e t hs h
  have hkept := hx s hs
  rw [perform_bind] at h
  cases hp : x.perform s with
  | mk outcome u =>
    rw [hp] at h hkept
    cases outcome with
    | ok a => exact hf a u e t hkept h
    | error err =>
      cases h
      exact hkept

end Change

end QueryGrammar
