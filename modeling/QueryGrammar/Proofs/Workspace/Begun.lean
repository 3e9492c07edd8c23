import QueryGrammar.Proofs.Workspace.UpFront
import QueryGrammar.Proofs.Document.Derivation
/-!
Which registrations of several symbols begin. One that its checks refuse, or that is refused at its
first symbol, has done nothing. From the first symbol on something is left behind, whatever comes of
the rest.
-/
namespace QueryGrammar

open Change Draft

/-- The registration is refused, and nothing has been done. -/
def RefusedAt {α : Type} (ws : Workspace) (x : Registration α) : Prop :=
  ∃ e, x.perform ws = (.error e, ws)

/-- If `B`, the registration adds a symbol, whatever comes of the rest. Otherwise it is refused with
nothing done. -/
def Opens {α : Type} (ws : Workspace) (x : Registration α) (B : Prop) : Prop :=
  B ∧ ws.draft.symbols.length < (x.perform ws).2.draft.symbols.length ∨ ¬B ∧ RefusedAt ws x

/-- Symbols are never taken back. -/
theorem longer_stepInvariant (n : Nat) : StepInvariant fun d => n < d.symbols.length where
  newSymbol hd h := hd.trans_le (keepsNames_newSymbolOf h).length_le
  addRule hd h := by
    obtain ⟨r, -, h⟩ := Outcome.ok_of_bind h
    cases h
    exact hd.trans_le (keepsNames_appendRule _ _ r).length_le
  addLexical hd h := by
    obtain ⟨f, rules, hnew, -, rfl⟩ := addLexical_eq h
    have hf := hd.trans_le (keepsNames_newSymbolOf hnew).length_le
    exact hf.trans_le (f.keepsNames_modifyRules _ fun _ => rules).length_le
  newPhrase hd h := by
    obtain ⟨f, r, hnew, -, -, rfl⟩ := newPhrase_eq h
    exact hd.trans_le ((keepsNames_newSymbolOf hnew).trans (f.keepsNames_appendRule _ r)).length_le
  newSemantic hd h := hd.trans_le (keepsNames_newSemantic h).length_le
  newEntityCategory hd h := by
    obtain ⟨-, heq⟩ := newEntityCategory_eq h
    cases heq
    exact hd
  deferStopWords _ hd := hd

theorem longer_compositeStep (n : Nat) :
    CompositeStep (fun _ => True) fun _ d => n < d.symbols.length :=
  .of_plainStepInvariant fun _ => (longer_stepInvariant n).toPlainStepInvariant

theorem longer_joins (n : Nat) (k : Connectives) : Joins (fun _ d => n < d.symbols.length) k :=
  joins_of_plainStepInvariant (fun _ => (longer_stepInvariant n).toPlainStepInvariant) k

namespace Opens

variable {α β : Type} {ws : Workspace} {x : Registration α} {g : α → Registration β} {B B' : Prop}

theorem congr (h : Opens ws x B) (hB : B ↔ B') : Opens ws x B' := propext hB ▸ h

theorem get_bind {g : Workspace → Registration β} (h : Opens ws (g ws) B) :
    Opens ws (get >>= g) B := h

theorem after {a : α} (hx : x.perform ws = (.ok a, ws)) (h : Opens ws (g a) B) :
    Opens ws (x >>= g) B := by
  have hperform : (x >>= g).perform ws = (g a).perform ws := by rw [perform_bind, hx]
  unfold Opens RefusedAt
  rw [hperform]
  exact h

/-- What is only asked has to be answered. -/
theorem ask_bind {f : Draft → Outcome α} {B : α → Prop}
    (h : ∀ a, f ws.draft = .ok a → Opens ws (g a) (B a)) :
    Opens ws (Registration.ask f >>= g) (∃ a, f ws.draft = .ok a ∧ B a) := by
  have hask : ∀ o, f ws.draft = o → (Registration.ask f).perform ws = (o, ws) := by
    rintro _ rfl
    rfl
  cases ha : f ws.draft with
  | error e => exact Or.inr ⟨by simp, e, by rw [perform_bind, hask _ ha]⟩
  | ok a => exact (after (hask _ ha) (h a ha)).congr (by simp)

/-- A check has to be passed. -/
theorem check {o : Outcome Unit} {x : Registration Unit} {g : Unit → Registration β}
    (hx : x.perform ws = (o, ws)) (h : o = .ok () → Opens ws (g ()) B) :
    Opens ws (x >>= g) (o = .ok () ∧ B) := by
  cases o with
  | error e => exact Or.inr ⟨by simp, e, by rw [perform_bind, hx]⟩
  | ok u => exact (after hx (h rfl)).congr (by simp)

theorem bind (h : Opens ws x B)
    (hg : ∀ a, Registration.KeepsDraft (fun _ d => ws.draft.symbols.length < d.symbols.length) (g a)) :
    Opens ws (x >>= g) B := by
  rcases h with ⟨hB, hgrown⟩ | ⟨hB, e, hx⟩
  · refine Or.inl ⟨hB, ?_⟩
    rw [perform_bind]
    cases hp : x.perform ws with
    | mk outcome t =>
      rw [hp] at hgrown
      cases outcome with
      | error e => exact hgrown
      | ok a => exact hg a t hgrown
  · exact Or.inr ⟨hB, e, by rw [perform_bind, hx]⟩

theorem call {f : Draft → Outcome (α × Draft)} {v : α} {b : Additions}
    (hf : ws.draft.Enlarges {} f B v b) (hb : 0 < b.symbols.length) :
    Opens ws (Registration.call f) B := by
  unfold Opens RefusedAt
  simp only [Registration.call, perform_within, perform_call]
  cases he : f ws.draft with
  | error err => exact Or.inr ⟨hf.of_error (.refl _) he, err, rfl⟩
  | ok p =>
    obtain ⟨hB, -, hadded⟩ := hf.of_ok (.refl _) he
    refine Or.inl ⟨hB, ?_⟩
    rw [hadded.length]
    omega

variable {part : String}

theorem newSymbol (hpart : ws.draft.Vacant {} part) :
    Opens ws (Registration.newSymbol [part]) (¬ ws.draft.Buried (Name.bracketed part)) :=
  call (enlarges_newSymbolOf hpart false) (by simp)

theorem addWord {accepted substituted : List String} {cost : Option Float}
    (hpart : ws.draft.Vacant {} part) (hword : IsWord part accepted substituted cost) :
    Opens ws (Registration.addWord part accepted substituted cost)
      (¬ ws.draft.Buried (Name.bracketed part)) :=
  call (enlarges_addWord hpart hword) (by simp)

end Opens

namespace Draft

theorem live_eq_ok_iff {d : Draft} {X : SymbolId} {s : Symbol} : d.live X = .ok s ↔ d.get? X = some s := by
  cases h : d.get? X <;> simp [live, h]

theorem vacant_of_free {d : Draft} {part : String} (hpart : Name.isPart part = true)
    (hfree : d.find? (Name.bracketed part) = none) : d.Vacant {} part :=
  ⟨hpart, hfree, by simp [Additions.parts]⟩

end Draft

/-! ### Families -/

namespace Conjunction

/-- The name parts that a conjunction tries first: "and", or else all those of the family at once. -/
def firstParts (known : Option Connectives) (stem : String) : List String :=
  if known.isSome then (familyNames stem).toList else ["and"]

/-- The checks are passed, and one of the first symbols can be registered. -/
structure Begins (ws : Workspace) (operand : SymbolId) : Prop where
  live : operand ∈ ws.draft.liveSymbols
  checked : checkFamilyNames ws (Name.stem (ws.draft.symbolName operand)) = .ok ()
  first : ∃ part ∈ firstParts ws.connectives (Name.stem (ws.draft.symbolName operand)),
    ¬ ws.draft.Buried (Name.bracketed part)

variable {ws : Workspace} {parts : List String} {part : String}

/-- None of these symbols could be registered and nothing has been done, or one has been registered. -/
def Tried (ws : Workspace) (parts : List String) (t : Workspace) : Prop :=
  (t = ws ∧ ∀ part ∈ parts, ws.draft.Buried (Name.bracketed part)) ∨
    ws.draft.symbols.length < t.draft.symbols.length

theorem Tried.newSymbol {t : Workspace} (h : Tried ws parts t) (hpart : ws.draft.Vacant {} part) :
    Tried ws (parts ++ [part]) ((Registration.newSymbol [part]).perform t).2 := by
  rcases h with ⟨rfl, hburied⟩ | hgrown
  · rcases Opens.newSymbol hpart with ⟨-, hgrown⟩ | ⟨hfree, e, hx⟩
    · exact Or.inr hgrown
    · refine Or.inl ⟨by rw [hx], fun p hp => ?_⟩
      rcases List.mem_append.mp hp with hp | hp
      · exact hburied p hp
      · exact List.mem_singleton.mp hp ▸ not_not.mp hfree
  · exact Or.inr (Registration.keeps_newSymbol
      (fun _ => (longer_stepInvariant _).toPlainStepInvariant) [part] t hgrown)

theorem Tried.observe_bind {β : Type} {f : Outcome SymbolId → Registration β}
    (hpart : ws.draft.Vacant {} part)
    (hf : ∀ o t, Tried ws (parts ++ [part]) t →
      ws.draft.symbols.length < ((f o).perform t).2.draft.symbols.length) :
    ∀ t, Tried ws parts t → ws.draft.symbols.length <
      (((Registration.newSymbol [part]).observe >>= f).perform t).2.draft.symbols.length :=
  fun _ ht => hf _ _ (ht.newSymbol hpart)

theorem refusedAt_observe_bind {β : Type} {f : Outcome SymbolId → Registration β}
    (hpart : ws.draft.Vacant {} part) (hburied : ws.draft.Buried (Name.bracketed part))
    (hf : ∀ e, RefusedAt ws (f (.error e))) :
    RefusedAt ws ((Registration.newSymbol [part]).observe >>= f) := by
  rcases Opens.newSymbol hpart with ⟨hfree, -⟩ | ⟨-, e, hx⟩
  · exact absurd hburied hfree
  · have hobserved : ((Registration.newSymbol [part]).observe >>= f).perform ws =
        (f (.error e)).perform ws := by rw [perform_bind, perform_observe, hx]
    unfold RefusedAt
    rw [hobserved]
    exact hf e

/-- A family is begun as soon as any of its symbols can be registered, for all of them are tried. -/
theorem opens_familyOf (operand : SymbolId) {names : FamilyNames} (c : Connectives)
    (hvacant : ∀ part ∈ names.toList, ws.draft.Vacant {} part) :
    Opens ws (Workspace.familyOf operand names c)
      (∃ part ∈ names.toList, ¬ ws.draft.Buried (Name.bracketed part)) := by
  have hroot := hvacant names.root (by simp [FamilyNames.toList])
  have handGroup := hvacant names.andGroup (by simp [FamilyNames.toList])
  have handTail := hvacant names.andTail (by simp [FamilyNames.toList])
  have handOption := hvacant names.andOption (by simp [FamilyNames.toList])
  have horGroup := hvacant names.orGroup (by simp [FamilyNames.toList])
  have horTail := hvacant names.orTail (by simp [FamilyNames.toList])
  by_cases hfirst : ∃ part ∈ names.toList, ¬ ws.draft.Buried (Name.bracketed part)
  · refine Or.inl ⟨hfirst, ?_⟩
    obtain ⟨part, hpart, hfree⟩ := hfirst
    unfold Workspace.familyOf
    refine Tried.observe_bind hroot (fun _ => ?_) ws (Or.inl ⟨rfl, List.forall_mem_nil _⟩)
    refine Tried.observe_bind handGroup fun _ => Tried.observe_bind handTail fun _ => ?_
    refine Tried.observe_bind handOption fun _ => Tried.observe_bind horGroup fun _ => ?_
    refine Tried.observe_bind horTail fun _ t ht => ?_
    have hgrown := ht.resolve_left fun hburied => hfree (hburied.2 part hpart)
    refine (?_ : Registration.KeepsDraft (fun _ d => ws.draft.symbols.length < d.symbols.length) _)
      t hgrown
    iterate 6 refine Keeps.bind (Keeps.ofOutcome _) fun _ => ?_
    exact Workspace.keeps_familyRules (longer_compositeStep _) _ (longer_joins _ c) _ _ _ _ _ _
  · refine Or.inr ⟨hfirst, ?_⟩
    simp only [FamilyNames.toList, List.mem_cons, List.not_mem_nil, or_false, not_exists, not_and,
      not_not, forall_eq_or_imp, forall_eq] at hfirst
    obtain ⟨h₀, h₁, h₂, h₃, h₄, h₅⟩ := hfirst
    refine refusedAt_observe_bind hroot h₀ fun e => refusedAt_observe_bind handGroup h₁ fun _ => ?_
    refine refusedAt_observe_bind handTail h₂ fun _ => refusedAt_observe_bind handOption h₃ fun _ => ?_
    refine refusedAt_observe_bind horGroup h₄ fun _ => refusedAt_observe_bind horTail h₅ fun _ => ?_
    exact ⟨e, rfl⟩

theorem opens_connectivesOnce (hnew : ws.connectives = none)
    (hchecked : checkConnectiveNames ws = .ok ()) :
    Opens ws Workspace.connectivesOnce (¬ ws.draft.Buried (Name.bracketed "and")) := by
  obtain ⟨hfree, -⟩ := free_of_checkConnectiveNames hchecked
  have hand := hfree "and" (by simp [connectiveParts, hnew])
  rw [Workspace.connectivesOnce_eq]
  refine Opens.get_bind ?_
  rw [hnew]
  refine Opens.get_bind (Opens.after (a := ()) (by rw [perform_ofOutcome, hchecked]) ?_)
  exact (Opens.addWord (vacant_of_free hand.1 hand.2) isWord_and).bind
    fun _ => Workspace.keeps_connectivesWith (longer_stepInvariant _).toPlainStepInvariant _

theorem opens_conjunction {operand : SymbolId} (hnew : ws.conjunctionRoot? operand = none) :
    Opens ws (Workspace.conjunction operand) (Begins ws operand) := by
  have hopens : Opens ws (Workspace.conjunction operand) (∃ s, ws.draft.live operand = .ok s ∧
      checkFamilyNames ws (Name.stem s.name) = .ok () ∧
        ∃ part ∈ firstParts ws.connectives (Name.stem s.name),
          ¬ ws.draft.Buried (Name.bracketed part)) := by
    rw [Workspace.conjunction_eq]
    refine Opens.get_bind ?_
    rw [hnew]
    refine Opens.ask_bind fun s hs => Opens.get_bind (Opens.check rfl fun hchecked => ?_)
    cases hknown : ws.connectives with
    | none =>
      obtain ⟨⟨⟩, -, hconnectives⟩ := Outcome.ok_of_bind hchecked
      have hfirst := opens_connectivesOnce hknown hconnectives
      refine (hfirst.bind fun _ => ?_).congr (by simp [firstParts])
      exact Workspace.keeps_familyOf (longer_compositeStep _) _ _ (longer_joins _ _)
    | some c =>
      have hcached : Workspace.connectivesOnce.perform ws = (.ok c, ws) := by
        rw [Workspace.connectivesOnce_eq, perform_bind, perform_get]
        simp only [hknown]
        rfl
      refine Opens.after hcached (opens_familyOf operand c fun part hpart => ?_)
      obtain ⟨hispart, hfree⟩ :=
        (free_of_checkFamilyNames hchecked).1 part (List.mem_append_right _ hpart)
      exact vacant_of_free hispart hfree
  refine hopens.congr ⟨?_, fun h => ?_⟩
  · rintro ⟨s, hs, hchecked, hfirst⟩
    have hget := live_eq_ok_iff.mp hs
    rw [← symbolName_of_get? hget] at hchecked hfirst
    exact ⟨mem_liveSymbols_iff.mpr ⟨s, hget⟩, hchecked, hfirst⟩
  · obtain ⟨s, hs⟩ := mem_liveSymbols_iff.mp h.live
    have hchecked := h.checked
    have hfirst := h.first
    rw [symbolName_of_get? hs] at hchecked hfirst
    exact ⟨s, live_eq_ok_iff.mpr hs, hchecked, hfirst⟩

end Conjunction

/-! ### Negations -/

namespace Negation

/-- The name parts of the negation beside a symbol and of its stop words. -/
def parts (d : Draft) : Option SymbolId → List String
  | none => ["negation", "negation-stop-word"]
  | some id =>
    let stem := Name.stem (d.symbolName id)
    ["negation-for-" ++ stem, "negation-stop-word-for-" ++ stem]

/-- The checks are passed, and the first symbol can be registered. -/
structure Begins (ws : Workspace) (conflicting : Option SymbolId) : Prop where
  live : ∀ X ∈ conflicting, X ∈ ws.draft.liveSymbols
  checked : (parts ws.draft conflicting).forM (Conjunction.checkPartFree ws.draft) = .ok ()
  word : ws.notWord = none → ws.draft.checkFree "[not]" = .ok ()
  first : ∀ part ∈ (pending ws.notWord "not" ++ parts ws.draft conflicting).head?,
    ¬ ws.draft.Buried (Name.bracketed part)

variable {ws : Workspace} {conflicting : Option SymbolId}

theorem nameParts_eq_ok_iff {d : Draft} {p : String × String} :
    nameParts d conflicting = .ok p ↔
      (∀ X ∈ conflicting, X ∈ d.liveSymbols) ∧ parts d conflicting = [p.1, p.2] := by
  obtain ⟨part, stopPart⟩ := p
  cases conflicting with
  | none => simp [nameParts, parts]
  | some id =>
    simp only [nameParts, Outcome.bind_eq_ok_iff, live_eq_ok_iff, parts, Option.mem_def,
      Option.some.injEq, forall_eq', mem_liveSymbols_iff]
    constructor
    · rintro ⟨s, hs, heq⟩
      obtain ⟨rfl, rfl⟩ := Prod.mk.inj (Except.ok.inj heq)
      exact ⟨⟨s, hs⟩, by rw [symbolName_of_get? hs]⟩
    · rintro ⟨⟨s, hs⟩, heq⟩
      rw [symbolName_of_get? hs] at heq
      obtain ⟨hpart, hstop⟩ := List.cons.inj heq
      exact ⟨s, hs, by rw [← hpart, ← (List.cons.inj hstop).1]; rfl⟩

theorem opens_notWordOnce (hnew : ws.notWord = none) (hfree : ws.draft.checkFree "[not]" = .ok ()) :
    Opens ws Workspace.notWordOnce (¬ ws.draft.Buried (Name.bracketed "not")) := by
  have hvacant := vacant_of_free (by decide) (checkFree_eq_ok_iff.mp hfree : ws.draft.find?
    (Name.bracketed "not") = none)
  unfold Workspace.notWordOnce
  refine Opens.get_bind ?_
  rw [hnew]
  refine (Opens.addWord hvacant isWord_not).bind fun _ => ?_
  exact Keeps.bind (Keeps.modify fun _ hd => hd) fun _ => Keeps.pure _

theorem opens_negation (hnew : ws.negations.lookup conflicting = none) :
    Opens ws (Workspace.negation conflicting) (Begins ws conflicting) := by
  have hopens : Opens ws (Workspace.negation conflicting) (∃ p, nameParts ws.draft conflicting = .ok p ∧
      [p.1, p.2].forM (Conjunction.checkPartFree ws.draft) = .ok () ∧
        (ws.notWord = none → ws.draft.checkFree "[not]" = .ok ()) ∧
        ∀ part ∈ (pending ws.notWord "not" ++ [p.1, p.2]).head?,
          ¬ ws.draft.Buried (Name.bracketed part)) := by
    rw [Workspace.negation_eq]
    refine Opens.get_bind ?_
    rw [hnew]
    refine Opens.ask_bind fun p _ => Opens.check rfl fun hchecked => Opens.get_bind ?_
    have hlonger := longer_compositeStep ws.draft.symbols.length
    cases hnot : ws.notWord with
    | none =>
      refine (Opens.check rfl fun hfree => ?_).congr
        (B := ws.draft.checkFree "[not]" = .ok () ∧ ¬ ws.draft.Buried (Name.bracketed "not"))
        (by simp [pending])
      refine (opens_notWordOnce hnot hfree).bind fun _ => ?_
      exact Keeps.bind (hlonger.keeps_newSymbol _) fun _ =>
        Workspace.keeps_negationOf hlonger (fun _ _ _ hd => hd) _ _ _ _
    | some X =>
      have hcached : Workspace.notWordOnce.perform ws = (.ok X, ws) := by
        rw [Workspace.notWordOnce, perform_bind, perform_get]
        simp only [hnot]
        rfl
      have hpart := checkPartFree_eq_ok_iff.mp (Outcome.forM_eq_ok_iff.mp hchecked p.1 (by simp))
      refine (Opens.after hcached ?_).congr
        (B := ¬ ws.draft.Buried (Name.bracketed p.1)) (by simp [pending])
      exact (Opens.newSymbol (vacant_of_free hpart.1 hpart.2)).bind fun _ =>
        Workspace.keeps_negationOf hlonger (fun _ _ _ hd => hd) _ _ _ _
  refine hopens.congr ⟨?_, fun h => ?_⟩
  · rintro ⟨p, hp, hchecked, hword, hfirst⟩
    obtain ⟨hlive, hparts⟩ := nameParts_eq_ok_iff.mp hp
    rw [← hparts] at hchecked hfirst
    exact ⟨hlive, hchecked, hword, hfirst⟩
  · obtain ⟨part, stopPart, hparts⟩ : ∃ part stopPart, parts ws.draft conflicting = [part, stopPart] := by
      cases conflicting <;> exact ⟨_, _, rfl⟩
    refine ⟨(part, stopPart), nameParts_eq_ok_iff.mpr ⟨h.live, hparts⟩, ?_, h.word, ?_⟩
    · exact hparts ▸ h.checked
    · exact hparts ▸ h.first

end Negation

end QueryGrammar
