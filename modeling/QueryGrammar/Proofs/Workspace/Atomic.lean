import QueryGrammar.Proofs.Workspace.Rooted
/-!
Registrations of several symbols as seen by their caller. Either they are refused with nothing done or
they answer symbols that are live: this is so in every workspace that calls lead to, except for what
has been pruned. The checks overlook pruned symbols, whose names stay taken, and what is shared or known
is answered as it was registered, live or not.
-/
namespace QueryGrammar

open Change Draft

/-- A registration of several symbols at once. -/
inductive Composite where
  | conjunction (operand : SymbolId)
  | negation (conflicting : Option SymbolId)
  | category (spec : CategoryWords)

namespace Composite

/-- The registration, answering all its symbols and entity categories. -/
def register : Composite → Registration Handles
  | conjunction operand => (fun root => { symbols := [root] }) <$> Workspace.conjunction operand
  | negation conflicting => NegationSet.handles <$> Workspace.negation conflicting
  | category spec => Category.handles <$> Workspace.category spec

/-- What is answered without registering anything. -/
def known? (ws : Workspace) : Composite → Option Handles
  | conjunction operand => (ws.conjunctionRoot? operand).map fun root => { symbols := [root] }
  | negation conflicting => (ws.negations.lookup conflicting).map NegationSet.handles
  | category spec => (ws.category? spec.singular).map Category.handles

/-- The checks are passed and the first symbol can be registered. -/
def Begins (ws : Workspace) : Composite → Prop
  | conjunction operand => Conjunction.Begins ws operand
  | negation conflicting => Negation.Begins ws conflicting
  | category spec => Category.Begins ws spec

/-- Nothing that has been pruned is in the way. -/
def Fits (ws : Workspace) : Composite → Prop
  | conjunction operand =>
    ws.draft.FamilyFits ws.connectives (Name.stem (ws.draft.symbolName operand))
  | negation conflicting =>
    ws.draft.WordFits ws.notWord "not" ∧ ws.draft.Unburied (Negation.parts ws.draft conflicting)
  | category spec =>
    Category.Fits ws (Name.slug spec.singular) spec.isPerson (!spec.entities.isEmpty)

/-- Refused, the registration leaves the workspace as it was; accepted, it answers what is live. -/
def SoundAt (ws : Workspace) (c : Composite) : Prop :=
  match c.register.perform ws with
  | (.ok h, t) => h.LiveIn t.draft
  | (.error _, t) => t = ws

end Composite

/-! ### Registrations that answer handles -/

section Handles

variable {α : Type} {ws : Workspace} {x : Registration α} {f : α → Handles} {B C : Prop}

theorem Settled.map {R : α → Workspace → Prop} (h : Settled ws x B C R)
    (hR : ∀ a t, R a t → (f a).LiveIn t.draft) :
    Settled ws (f <$> x) B C fun h t => h.LiveIn t.draft := by
  refine h.imp (And.imp_right ?_) (And.imp_right ?_)
  · rintro ⟨e, hx⟩
    exact ⟨e, by rw [perform_map, hx]⟩
  · rintro ⟨a, hdecided⟩
    exact ⟨f a, (hdecided.map f).weaken (fun _ h => h) (hR a)⟩

end Handles

namespace Composite

variable {ws : Workspace} {c : Composite}

/-- What is known is answered, and nothing is done. -/
theorem perform_of_known {h : Handles} (hknown : c.known? ws = some h) :
    c.register.perform ws = (.ok h, ws) := by
  cases c with
  | conjunction operand =>
    obtain ⟨root, hroot, rfl⟩ := Option.map_eq_some_iff.mp hknown
    rw [register, perform_map, Workspace.conjunction_known hroot]
  | negation conflicting =>
    obtain ⟨set, hset, rfl⟩ := Option.map_eq_some_iff.mp hknown
    rw [register, perform_map, Workspace.negation_known hset]
  | category spec =>
    obtain ⟨category, hcategory, rfl⟩ := Option.map_eq_some_iff.mp hknown
    rw [register, perform_map, Workspace.category_known hcategory]

/-- What is not known does not begin, or it is decided by what has been pruned. -/
theorem settled (hws : Rooted 0 ws)
    (hseparators : ∀ X ∈ separators ws.connectives, X.index < ws.draft.symbols.length)
    (hnew : c.known? ws = none) :
    Settled ws c.register (c.Begins ws) (c.Fits ws) fun h t => h.LiveIn t.draft := by
  cases c with
  | conjunction operand =>
    have hnew := Option.map_eq_none_iff.mp hnew
    refine (Workspace.conjunction_settled hws hseparators hnew).map fun root t h => ⟨?_, ?_⟩
    · simpa using h.2.1
    · simp
  | negation conflicting =>
    have hnew := Option.map_eq_none_iff.mp hnew
    exact (Workspace.negation_settled hws hnew).map fun set t h => h.2.1
  | category spec =>
    have hnew := Option.map_eq_none_iff.mp hnew
    have hsettled := (Workspace.newCategory_settled hws hseparators spec).map (f := Category.handles)
      fun c t h => ⟨h.2.symbols, fun id hid => h.2.entities id (Option.mem_toList.mp hid)⟩
    have hperform : (register (.category spec)).perform ws =
        (Category.handles <$> Workspace.newCategory spec).perform ws := by
      rw [register, perform_map, Workspace.category_unknown hnew, perform_map]
    exact hsettled.of_perform_eq hperform

end Composite

/-- A composite registration is sound exactly if what it answers without registering is live and, once
it begins, nothing that has been pruned is in its way. -/
theorem Built.composite_sound_iff {ws : Workspace} (h : Built ws) (c : Composite) : c.SoundAt ws ↔
    (∀ handles ∈ c.known? ws, handles.LiveIn ws.draft) ∧
      (c.known? ws = none → c.Begins ws → c.Fits ws) := by
  cases hknown : c.known? ws with
  | some handles => simp [Composite.SoundAt, Composite.perform_of_known hknown]
  | none =>
    simp only [Option.mem_def, reduceCtorEq, false_imp_iff, implies_true, true_and, true_imp_iff]
    rcases Composite.settled h.rooted h.separators_lt hknown with
      ⟨hbegins, e, hrefused⟩ | ⟨hbegins, handles, hdecided⟩
    · simp [Composite.SoundAt, hrefused, hbegins]
    · have hx := hdecided ws rfl
      rw [Composite.SoundAt]
      cases hp : c.register.perform ws with
      | mk outcome t =>
        rw [hp] at hx
        cases outcome with
        | ok answer =>
          obtain ⟨hfits, rfl, hlive⟩ := hx
          exact ⟨fun _ _ => hfits, fun _ => hlive⟩
        | error e =>
          have hgrown : t ≠ ws := by
            rintro rfl
            exact absurd hx.2.count (by omega)
          exact ⟨fun heq => absurd heq hgrown, fun hfits => absurd (hfits hbegins) hx.1⟩

/-! ### Families of two words, of which one is used -/

/-- Two words that the start symbol reads, and the family of the first, which nothing reads and which is
removed again. -/
def trimmedFamily : Registration Unit := do
  let a ← Registration.newSymbol ["a"]
  let b ← Registration.newSymbol ["b"]
  Registration.addRule a (.terminal "x" .verbatim)
  Registration.addRule b (.terminal "y" .verbatim)
  Registration.addRule Draft.start (.unary a)
  Registration.addRule Draft.start (.unary b)
  let _ ← Workspace.conjunction a
  let _ ← Registration.call (·.removeUnused .warn)

def trimmedWords : Workspace := (trimmedFamily.perform {}).2

theorem built_trimmedWords : Built trimmedWords := by
  have hregister : ∀ {α : Type} {x : Registration α}, RegistrationCall x → Keeps Built x :=
    fun hx => (ModuleCall.register hx).keepsBuilt
  refine (?_ : Keeps Built trimmedFamily) {} .init
  refine Keeps.bind (hregister (.newSymbol _)) fun a => Keeps.bind (hregister (.newSymbol _)) fun b => ?_
  refine Keeps.bind (hregister (.addRule _ _)) fun _ => Keeps.bind (hregister (.addRule _ _)) fun _ => ?_
  refine Keeps.bind (hregister (.addRule _ _)) fun _ => Keeps.bind (hregister (.addRule _ _)) fun _ => ?_
  refine Keeps.bind (hregister (.conjunction _)) fun _ => ?_
  exact Keeps.bind (ModuleCall.removeUnused .warn).keepsBuilt fun _ => Keeps.pure _

/-- Nothing that was removed is in the way of a negation. -/
theorem composite_sound_negation : (Composite.negation none).SoundAt trimmedWords := by
  rw [built_trimmedWords.composite_sound_iff]
  refine ⟨?_, fun _ _ => ?_⟩
  · have hnew : (Composite.negation none).known? trimmedWords = none := by decide +kernel
    simp [hnew]
  · have hword : trimmedWords.notWord = none := by decide +kernel
    exact ⟨⟨by decide +kernel, by simp [hword]⟩, by decide +kernel⟩

/-- The removed root is still answered for the first word. For the second one, six symbols are added
before the removed connectives are missed. -/
theorem exists_composite_not_sound : ∃ ws : Workspace, Built ws ∧
    ¬ (Composite.conjunction ⟨1⟩).SoundAt ws ∧ ¬ (Composite.conjunction ⟨2⟩).SoundAt ws := by
  refine ⟨trimmedWords, built_trimmedWords, fun hsound => ?_, fun hsound => ?_⟩
  · have hroot : trimmedWords.conjunctionRoot? ⟨1⟩ = some ⟨6⟩ := by decide +kernel
    have hknown : (Composite.conjunction ⟨1⟩).known? trimmedWords = some { symbols := [⟨6⟩] } := by
      rw [Composite.known?, hroot, Option.map_some]
    rw [Composite.SoundAt, Composite.perform_of_known hknown] at hsound
    exact absurd (hsound.symbols ⟨6⟩ (by simp)) (by decide +kernel)
  · obtain ⟨err, hrefused⟩ := exists_of_not_isOk (show ((Composite.conjunction ⟨2⟩).register.perform
      trimmedWords).1.isOk = false by decide +kernel)
    rw [Composite.SoundAt, hrefused] at hsound
    have hlength := congrArg (·.draft.symbols.length) hsound
    exact absurd hlength (by decide +kernel)

end QueryGrammar
