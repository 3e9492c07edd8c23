import QueryGrammar.Proofs.Category.Decided
import QueryGrammar.Proofs.Workspace.Begun
/-!
Registrations of several symbols at once, from any workspace. One that is known already answers what is
known. Any other does not begin, and nothing is done, or it is decided by what has been pruned; if that
is in its way, it stops with symbols added.
-/
namespace QueryGrammar

open Change Draft

/-- A registration that does not begin is refused with nothing done. One that begins is accepted
exactly if `C`, and refused otherwise with symbols added. -/
def Settled {α : Type} (ws : Workspace) (x : Registration α) (B C : Prop) (R : α → Workspace → Prop) :
    Prop :=
  ¬B ∧ RefusedAt ws x ∨ B ∧ ∃ a, Decides (Rooted (ws.draft.symbols.length + 1)) (· = ws) x C a (R a)

theorem Settled.of_perform_eq {α : Type} {ws : Workspace} {x y : Registration α} {B C : Prop}
    {R : α → Workspace → Prop} (h : Settled ws y B C R) (hxy : x.perform ws = y.perform ws) :
    Settled ws x B C R := by
  refine h.imp (And.imp_right ?_) (And.imp_right ?_)
  · rintro ⟨e, hy⟩
    exact ⟨e, hxy.trans hy⟩
  · rintro ⟨a, hdecided⟩
    refine ⟨a, fun s hs => ?_⟩
    have hy := hdecided s hs
    rw [← hs] at hxy
    rwa [hxy]

theorem Opens.settled {α : Type} {ws : Workspace} {x : Registration α} {B C : Prop}
    {R : α → Workspace → Prop} (hx : Opens ws x B)
    (h : B → ∃ a, Decides (Rooted 0) (· = ws) x C a (R a)) : Settled ws x B C R := by
  refine hx.symm.imp_right fun ⟨hB, hgrown⟩ => ⟨hB, ?_⟩
  obtain ⟨a, hdecided⟩ := h hB
  refine ⟨a, fun s hs => ?_⟩
  have hx := hdecided s hs
  rw [← hs] at hgrown ⊢
  cases hp : x.perform s with
  | mk outcome t =>
    rw [hp] at hx hgrown
    cases outcome with
    | error e => exact ⟨hx.1, { hx.2 with count := hgrown }⟩
    | ok b => exact hx

/-! ### What is answered -/

/-- The symbols and entity categories that a registration answers with. -/
structure Handles where
  symbols : List SymbolId
  categories : List EntityCategoryId := []

structure Handles.LiveIn (h : Handles) (d : Draft) : Prop where
  symbols : ∀ X ∈ h.symbols, X ∈ d.liveSymbols
  categories : ∀ id ∈ h.categories, (d.entityCategory? id).isSome

def NegationSet.handles (s : NegationSet) : Handles where
  symbols := [s.symbol, s.stopWord] ++ s.conflicting.toList

def Category.handles (c : Category) : Handles where
  symbols := c.symbols
  categories := c.entityCategory.toList

/-! ### Each of them -/

/-- The checks leave the category, and its term is accepted as a word. -/
def Category.Begins (ws : Workspace) (spec : CategoryWords) : Prop :=
  check ws (Name.slug spec.singular) (Name.slug spec.plural) spec.isPerson (!spec.entities.isEmpty) =
      .ok () ∧
    ∃ p, ws.draft.addWord (part (Name.slug spec.singular) "term") (termForms spec).1
      (termForms spec).2 none = .ok p

namespace Workspace

variable {ws : Workspace}

/-! ### What is known -/

theorem conjunction_known {operand root : SymbolId} (h : ws.conjunctionRoot? operand = some root) :
    (conjunction operand).perform ws = (.ok root, ws) := by
  rw [conjunction, perform_bind, perform_get]
  simp only [h]
  rfl

theorem negation_known {conflicting : Option SymbolId} {set : NegationSet}
    (h : ws.negations.lookup conflicting = some set) :
    (negation conflicting).perform ws = (.ok set, ws) := by
  rw [negation, perform_bind, perform_get]
  simp only [h]
  rfl

theorem category_known {spec : CategoryWords} {c : Category}
    (h : ws.category? spec.singular = some c) : (category spec).perform ws = (.ok c, ws) := by
  rw [category, perform_bind, perform_get]
  simp only [h]
  rfl

theorem category_unknown {spec : CategoryWords} (h : ws.category? spec.singular = none) :
    (category spec).perform ws = (newCategory spec).perform ws := by
  rw [category, perform_bind, perform_get]
  simp only [h]

/-! ### What is not known -/

theorem conjunction_settled (hws : Rooted 0 ws)
    (hseparators : ∀ X ∈ separators ws.connectives, X.index < ws.draft.symbols.length)
    {operand : SymbolId} (hnew : ws.conjunctionRoot? operand = none) :
    Settled ws (conjunction operand) (Conjunction.Begins ws operand)
      (ws.draft.FamilyFits ws.connectives (Name.stem (ws.draft.symbolName operand)))
      (fun root t => Rooted 0 t ∧ root ∈ t.draft.liveSymbols ∧
        ws.draft.Enlarged ((Additions.connect {} ws.connectives).addSymbols
          (Conjunction.familyNames (Name.stem (ws.draft.symbolName operand))).toList) t.draft) := by
  refine (Conjunction.opens_conjunction hnew).settled fun hbegins => ?_
  have hopen : ws.draft.FamilyOpen {} ws.connectives (Name.stem (ws.draft.symbolName operand)) := by
    refine ⟨Conjunction.room_of_checkFamilyNames hbegins.checked, ?_, hseparators⟩
    simpa using (Conjunction.free_of_checkFamilyNames hbegins.checked).2
  obtain ⟨s, hs⟩ := mem_liveSymbols_iff.mp hbegins.live
  have howner : ∀ t, Stage 0 ws.draft {} ws t → ∃ s, t.draft.get? operand = some s ∧
      Name.stem s.name = Name.stem (ws.draft.symbolName operand) :=
    fun t ht => ⟨s, ht.draft.get? hs, by rw [symbolName_of_get? hs]⟩
  refine ⟨_, (Stage.conjunction hnew howner hopen).weaken ?_ ?_⟩
  · rintro _ rfl
    exact .refl hws
  · intro t ht
    exact ⟨ht.rooted, ht.draft.mem_liveSymbols_iff.mpr (Stage.owned_familyAt ..).stands, ht.draft⟩

theorem negation_settled (hws : Rooted 0 ws) {conflicting : Option SymbolId}
    (hnew : ws.negations.lookup conflicting = none) :
    Settled ws (negation conflicting) (Negation.Begins ws conflicting)
      (ws.draft.WordFits ws.notWord "not" ∧ ws.draft.Unburied (Negation.parts ws.draft conflicting))
      (fun set t => Rooted 0 t ∧ set.handles.LiveIn t.draft ∧
        ∃ a, a.parts = pending ws.notWord "not" ++ Negation.parts ws.draft conflicting ∧
          ws.draft.Enlarged a t.draft) := by
  refine (Negation.opens_negation hnew).settled fun hbegins => ?_
  obtain ⟨part, stopPart, hparts⟩ : ∃ part stopPart,
      Negation.parts ws.draft conflicting = [part, stopPart] := by
    cases conflicting <;> exact ⟨_, _, rfl⟩
  have hnames : Negation.nameParts ws.draft conflicting = .ok (part, stopPart) :=
    Negation.nameParts_eq_ok_iff.mpr ⟨hbegins.live, hparts⟩
  have hchecked := Outcome.forM_eq_ok_iff.mp hbegins.checked
  simp only [checkPartFree_eq_ok_iff] at hchecked
  have hroom : ws.draft.Room {} (pending ws.notWord "not" ++ [part, stopPart]) := by
    refine room_of_free (List.forall_mem_append.mpr ⟨?_, hparts ▸ hchecked⟩)
      (Negation.nodup_nameParts ws.notWord hnames)
    exact free_of_pending "not" (by decide) fun hnone => checkFree_eq_ok_iff.mp (hbegins.word hnone)
  have hstays : ∀ t, Stage 0 ws.draft {} ws t →
      Negation.nameParts t.draft conflicting = .ok (part, stopPart) := by
    intro t ht
    cases conflicting with
    | none => exact hnames
    | some id =>
      obtain ⟨s, hs, heq⟩ := Outcome.ok_of_bind hnames
      have hlive := live_eq_ok_iff.mpr (ht.draft.get? (live_eq_ok_iff.mp hs))
      simp only [Negation.nameParts, hlive]
      exact heq
  rw [hparts]
  refine ⟨_, (Stage.negation hnew hstays hroom ?_).weaken ?_ ?_⟩
  · exact fun X hX => hws.words X (by simp [Option.mem_def.mp hX])
  · rintro _ rfl
    exact .refl hws
  · rintro t ⟨hrooted, hadded⟩
    refine ⟨hrooted, ⟨fun X hX => hadded.mem_liveSymbols_iff.mpr ?_, by simp [NegationSet.handles]⟩,
      _, ?_, hadded⟩
    · simp only [NegationSet.handles, List.cons_append, List.nil_append, List.mem_cons,
        Option.mem_toList] at hX
      rcases hX with rfl | rfl | hX
      · exact (stands_last _ _ part false).mono (Additions.Continued.addSymbol ..).symbols
      · have hlast := stands_last ws.draft ((Additions.addWords {} (pending ws.notWord "not")).addSymbol
          part false) stopPart true
        rwa [Additions.length_addSymbol, ← Nat.add_assoc] at hlast
      · exact Or.inl (hbegins.live X hX)
    · simp [Additions.parts, Additions.addWords, Additions.addSymbol, Function.comp_def]

theorem newCategory_settled (hws : Rooted 0 ws)
    (hseparators : ∀ X ∈ separators ws.connectives, X.index < ws.draft.symbols.length)
    (spec : CategoryWords) :
    Settled ws (newCategory spec) (Category.Begins ws spec)
      (Category.Fits ws (Name.slug spec.singular) spec.isPerson (!spec.entities.isEmpty))
      (fun c t => Rooted 0 t ∧ c.LiveIn t.draft) := by
  by_cases hbegins : Category.Begins ws spec
  · refine Or.inr ⟨hbegins, ?_⟩
    obtain ⟨hcheck, p, hp⟩ := hbegins
    obtain ⟨kept, -, hkept, -, -⟩ := addLexical_eq_ok_iff.mp hp
    have hterm : IsWord _ _ _ none := ⟨_, kept, hkept⟩
    have hfree := (Category.cleared_of_check hcheck).roles "term" (by decide)
    have hunburied := ((enlarges_addWord (vacant_of_free hfree.1 hfree.2) hterm).of_ok (.refl _) hp).1
    exact newCategory_decided hws hseparators rfl rfl rfl hcheck hterm hunburied
  · refine Or.inl ⟨hbegins, ?_⟩
    rw [RefusedAt, Category.newCategory_eq spec rfl rfl rfl, perform_bind, perform_get]
    simp only [perform_bind, perform_ofOutcome]
    cases hcheck : Category.check ws (Name.slug spec.singular) (Name.slug spec.plural) spec.isPerson
        (!spec.entities.isEmpty) with
    | error e => exact ⟨e, rfl⟩
    | ok u =>
      cases hword : ws.draft.addWord (Category.part (Name.slug spec.singular) "term")
          (Category.termForms spec).1 (Category.termForms spec).2 none with
      | error e =>
        refine ⟨e, ?_⟩
        simp only [Registration.addWord, Registration.call, perform_within, perform_call, hword]
      | ok p => exact absurd ⟨hcheck, p, hword⟩ hbegins

end Workspace

end QueryGrammar
