import QueryGrammar.Proofs.Change
/-!
Changes that are decided beforehand. From states of some kind a change is accepted exactly under a
condition that no longer depends on the state, and then its answer is known as well. A long change is
taken step by step: each step needs no more than the whole, and in the end there is all the whole needs.
-/
namespace QueryGrammar.Change

variable {σ α β : Type} {E P P' Q Q' R : σ → Prop} {C D : Prop} {a a' : α} {b : β}

/-- From every state in `P` the change is accepted exactly if `C` holds. It then answers `a` and leaves
a state in `Q`; refused, it leaves one in `E`. -/
def Decides (E P : σ → Prop) (x : Change σ α) (C : Prop) (a : α) (Q : σ → Prop) : Prop :=
  ∀ s, P s → match x.perform s with
    | (.ok b, t) => C ∧ b = a ∧ Q t
    | (.error _, t) => ¬C ∧ E t

namespace Decides

theorem modify {f : σ → σ} (h : ∀ s, P s → Q (f s)) :
    Decides E P (modify f : Change σ PUnit) True ⟨⟩ Q := fun s hs => ⟨trivial, rfl, h s hs⟩

theorem ofOutcome {x : Outcome α} (h : x = .ok a) : Decides E P (Change.ofOutcome x) True a P := by
  subst h
  exact fun _ hs => ⟨trivial, rfl, hs⟩

theorem call {f : σ → Outcome (α × σ)} (hE : ∀ s, P s → E s)
    (h : ∀ s, P s → match f s with
      | .ok (b, t) => C ∧ b = a ∧ Q t
      | .error _ => ¬C) :
    Decides E P (Change.call f) C a Q := by
  intro s hs
  have hf := h s hs
  rw [perform_call]
  cases hx : f s with
  | error e =>
    rw [hx] at hf
    exact ⟨hf, hE s hs⟩
  | ok p =>
    rw [hx] at hf
    exact hf

theorem get_bind {f : σ → Change σ β} (h : ∀ s, P s → Decides E P (f s) C b Q) :
    Decides E P (get >>= f) C b Q := fun s hs => h s hs s hs

/-- A step goes ahead if the whole does, and what it needed is there for the rest. -/
theorem step {x : Change σ α} {f : α → Change σ β} (hx : Decides E P x C a Q) (hDC : D → C)
    (hf : C → Decides E Q (f a) D b R) : Decides E P (x >>= f) D b R := by
  intro s hs
  have hfirst := hx s hs
  rw [perform_bind]
  cases hp : x.perform s with
  | mk outcome t =>
    rw [hp] at hfirst
    cases outcome with
    | error e => exact ⟨fun h => hfirst.1 (hDC h), hfirst.2⟩
    | ok c =>
      obtain ⟨hC, rfl, ht⟩ := hfirst
      exact hf hC t ht

theorem granted {x : Change σ α} {f : α → Change σ β} (hx : Decides E P x True a Q)
    (hf : Decides E Q (f a) D b R) : Decides E P (x >>= f) D b R :=
  hx.step (fun _ => trivial) fun _ => hf

/-- All that was needed was there. -/
theorem done (hD : D) (hab : a = a') : Decides E P (Pure.pure a) D a' P := fun _ hs => ⟨hD, hab, hs⟩

theorem congr {x : Change σ α} (h : Decides E P x C a Q) (hCD : C ↔ D) : Decides E P x D a Q :=
  propext hCD ▸ h

theorem map {x : Change σ α} (h : Decides E P x C a Q) (f : α → β) :
    Decides E P (f <$> x) C (f a) Q := by
  rw [map_eq_pure_bind]
  exact h.step id fun hC => .done hC rfl

/-- A step whose needs are met is as good as granted. -/
theorem met {x : Change σ α} {f : α → Change σ β} (hx : Decides E P x C a Q) (hC : C)
    (hf : Decides E Q (f a) D b R) : Decides E P (x >>= f) D b R :=
  hx.step (fun _ => hC) fun _ => hf

/-- A check that is made only under a condition. -/
theorem guarded {c : Prop} [Decidable c] {x : Change σ PUnit} {y : Change σ β}
    (hx : c → Decides E P x True ⟨⟩ P) (hy : Decides E P y D b Q) :
    Decides E P (if c then x >>= fun _ => y else y) D b Q := by
  split
  next hc => exact (hx hc).granted hy
  next => exact hy

/-- One of two changes, and the same after both. -/
theorem ite_bind {c : Prop} [Decidable c] {x y : Change σ α} {f : α → Change σ β}
    (h : Decides E P ((if c then x else y) >>= f) D b R) :
    Decides E P (if c then x >>= f else y >>= f) D b R := by
  rw [← apply_ite (· >>= f)]
  exact h

theorem observe {x : Change σ α} (h : Decides E P x C a Q) (hC : C) :
    Decides E P x.observe True (.ok a) Q := by
  intro s hs
  have hx := h s hs
  rw [perform_observe]
  cases hp : x.perform s with
  | mk outcome t =>
    rw [hp] at hx
    cases outcome with
    | error e => exact absurd hC hx.1
    | ok c => exact ⟨trivial, congrArg Except.ok hx.2.1, hx.2.2⟩

/-- What is observed of a change may be any of its outcomes. -/
theorem observe_bind {x : Change σ α} {f : Outcome α → Change σ β} {S : Outcome α → Prop}
    (hx : ∀ s, P s → S (x.perform s).1 ∧ Q (x.perform s).2)
    (hf : ∀ o, S o → Decides E Q (f o) D b R) : Decides E P (x.observe >>= f) D b R :=
  fun s hs => hf _ (hx s hs).1 _ (hx s hs).2

theorem ofOutcome_bind {o : Outcome α} {f : α → Change σ β} (hE : ∀ s, P s → E s)
    (herror : ∀ e, o = .error e → ¬D) (hf : ∀ a, o = .ok a → Decides E P (f a) D b R) :
    Decides E P (Change.ofOutcome o >>= f) D b R := by
  cases o with
  | error e => exact fun s hs => ⟨herror e rfl, hE s hs⟩
  | ok c => exact hf c rfl

theorem weaken {x : Change σ α} (h : Decides E P x C a Q) (hP : ∀ s, P' s → P s)
    (hQ : ∀ s, Q s → Q' s) : Decides E P' x C a Q' := by
  intro s hs
  have hx := h s (hP s hs)
  cases hp : x.perform s with
  | mk outcome t =>
    rw [hp] at hx
    cases outcome with
    | error e => exact hx
    | ok b => exact ⟨hx.1, hx.2.1, hQ t hx.2.2⟩

theorem of_accepted {x : Change σ α} {s t : σ} (h : Decides E P x C a Q) (hs : P s)
    (hx : x.perform s = (.ok a', t)) : C ∧ a' = a ∧ Q t := by
  have hdecided := h s hs
  rw [hx] at hdecided
  exact hdecided

theorem of_refused {x : Change σ α} {s t : σ} {e : BuildError} (h : Decides E P x C a Q) (hs : P s)
    (hx : x.perform s = (.error e, t)) : ¬C ∧ E t := by
  have hdecided := h s hs
  rw [hx] at hdecided
  exact hdecided

end Decides

end QueryGrammar.Change
