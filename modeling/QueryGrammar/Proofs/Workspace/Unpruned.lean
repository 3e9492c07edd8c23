import QueryGrammar.Proofs.Workspace.Atomic
/-!
Registrations of several symbols while nothing has been pruned. Then nothing is in their way that their
checks do not see, so conjunctions and negations are refused only before they have done anything. A
category with named instances is not: its singular names an entity category, and that a singular
without any word is no name shows only when the symbols are there.
-/
namespace QueryGrammar

open Change Draft

/-- A refusal leaves the workspace as it was. -/
def Atomic {α : Type} (ws : Workspace) (x : Registration α) : Prop :=
  ∀ e t, x.perform ws = (.error e, t) → t = ws

/-- What is accepted was known, and nothing is done, or symbols of exactly these name parts are added
behind the symbols that were there, which stay as they were. -/
def AddsSymbols {α : Type} (ws : Workspace) (x : Registration α) (known : Option α)
    (parts : List String) : Prop :=
  ∀ a t, x.perform ws = (.ok a, t) →
    (known = some a ∧ t = ws) ∨
      (known = none ∧ ∃ added : Additions, added.parts = parts ∧ ws.draft.Enlarged added t.draft)

theorem not_atomic_of_grown {α : Type} {ws : Workspace} {x : Registration α}
    (hrefused : (x.perform ws).1.isOk = false)
    (hgrown : ws.draft.symbols.length < (x.perform ws).2.draft.symbols.length) : ¬ Atomic ws x := by
  intro hatomic
  obtain ⟨e, he⟩ := exists_of_not_isOk hrefused
  rw [hatomic e _ he] at hgrown
  exact absurd hgrown (lt_irrefl _)

/-! ### Settled registrations -/

section Settled

variable {α : Type} {ws : Workspace} {x : Registration α} {B C : Prop} {R : α → Workspace → Prop}

/-- A registration that begins and then fails has left something behind. -/
theorem Settled.atomic_iff (h : Settled ws x B C R) : Atomic ws x ↔ (B → C) := by
  rcases h with ⟨hB, e, hrefused⟩ | ⟨hB, a, hdecided⟩
  · refine iff_of_true (fun err t ht => ?_) fun hB' => absurd hB' hB
    rw [hrefused] at ht
    exact (Prod.mk.inj ht).2.symm
  · constructor
    · intro hatomic _
      have hx := hdecided ws rfl
      cases hp : x.perform ws with
      | mk outcome t =>
        rw [hp] at hx
        cases outcome with
        | ok b => exact hx.1
        | error e =>
          have hcount := hx.2.count
          rw [hatomic e t hp] at hcount
          omega
    · intro hC e t ht
      exact absurd (hC hB) (hdecided.of_refused rfl ht).1

theorem Settled.of_accepted (h : Settled ws x B C R) {a : α} {t : Workspace}
    (hx : x.perform ws = (.ok a, t)) : B ∧ R a t := by
  rcases h with ⟨-, e, hrefused⟩ | ⟨hB, b, hdecided⟩
  · rw [hrefused] at hx
    cases hx
  · have hx' := hdecided ws rfl
    rw [hx] at hx'
    obtain ⟨-, rfl, hR⟩ := hx'
    exact ⟨hB, hR⟩

end Settled

/-! ### Nothing is buried -/

namespace Draft

variable {d : Draft}

theorem Sound.not_buried (h : d.Sound) (name : String) : ¬ d.Buried name := by
  rintro ⟨s, hs, -, hpruned⟩
  rw [h.unpruned s hs] at hpruned
  cases hpruned

theorem Sound.unburied (h : d.Sound) (parts : List String) : d.Unburied parts :=
  fun part _ => h.not_buried (Name.bracketed part)

theorem Sound.wordFits (h : d.Sound) {word : Option SymbolId} (part : String)
    (hword : ∀ X, word = some X → X.index < d.symbols.length) : d.WordFits word part where
  name := h.unburied _
  live X hX := h.mem_liveSymbols (hword X (Option.mem_def.mp hX))

theorem Sound.familyFits (h : d.Sound) {known : Option Connectives} (stem : String)
    (hknown : ∀ X ∈ separators known, X.index < d.symbols.length) : d.FamilyFits known stem where
  names := h.unburied _
  separators X hX := h.mem_liveSymbols (hknown X hX)

end Draft

theorem Workspace.mem_words_of_relative {ws : Workspace} {isPerson : Bool} {X : SymbolId}
    (h : ws.relative isPerson = some X) :
    some X ∈ [ws.notWord, ws.who, ws.that, ws.possessiveSuffix] := by
  unfold Workspace.relative at h
  split at h <;> simp [h]

/-- A name part of a role is the singular and the role, so all that can be wrong with the singular is
that it is empty. -/
theorem Category.isPart_singular_iff {singular role : String}
    (h : Name.isPart (part singular role) = true) : Name.isPart singular = true ↔ singular ≠ "" := by
  obtain ⟨-, hall⟩ : ¬ (part singular role).toList.isEmpty ∧
      ∀ c ∈ (part singular role).toList, Name.isPartChar c = true := by
    simpa [Name.isPart] using h
  have hchars : ∀ c ∈ singular.toList, Name.isPartChar c = true := by
    intro c hc
    exact hall c (by simp [part, hc])
  simpa [Name.isPart] using fun _ : ¬ singular = "" => hchars

namespace Registered

variable {ws : Workspace}

theorem wordFits (h : Registered ws) {word : Option SymbolId} (part : String)
    (hword : ∀ X, word = some X → some X ∈ [ws.notWord, ws.who, ws.that, ws.possessiveSuffix]) :
    ws.draft.WordFits word part :=
  h.sound.wordFits part fun X hX => h.built.rooted.words X (hword X hX)

theorem familyFits (h : Registered ws) (stem : String) : ws.draft.FamilyFits ws.connectives stem :=
  h.sound.familyFits stem h.built.separators_lt

/-- Once a category begins, only a singular without any word keeps it from getting its instances. -/
theorem category_fits_iff (h : Registered ws) {spec : CategoryWords}
    (hbegins : Category.Begins ws spec) :
    Category.Fits ws (Name.slug spec.singular) spec.isPerson (!spec.entities.isEmpty) ↔
      (spec.entities ≠ [] → Name.slug spec.singular ≠ "") := by
  have hcleared := Category.cleared_of_check hbegins.1
  have hpart := Category.isPart_singular_iff (hcleared.roles "term" (by decide)).1
  have hhas : (!spec.entities.isEmpty) = true ↔ spec.entities ≠ [] := by simp
  constructor
  · intro hfits hentities
    exact hpart.mp (hfits.entities (hhas.mpr hentities)).isPart
  · intro hsingular
    refine ⟨h.sound.unburied _, h.wordFits _ fun X => Workspace.mem_words_of_relative,
      h.familyFits _, fun hentities => ?_⟩
    refine ⟨hpart.mpr (hsingular (hhas.mp hentities)), fun c hc hname => ?_, h.sound.unburied _,
      h.wordFits _ fun X hX => by simp [hX]⟩
    have hpruned := hcleared.categories hentities c hc hname
    rw [h.sound.unprunedCategories c hc] at hpruned
    cases hpruned

/-! ### Conjunctions and negations -/

/-- A conjunction or a negation that is refused has done nothing. One that is accepted was known, or it
adds exactly its own symbols and the words that are shared and not there yet. -/
theorem combination_atomic (h : Registered ws) :
    (∀ operand, Atomic ws (Workspace.conjunction operand) ∧
      AddsSymbols ws (Workspace.conjunction operand) (ws.conjunctionRoot? operand)
        (connectiveParts ws.connectives ++
          (Conjunction.familyNames (Name.stem (ws.draft.symbolName operand))).toList)) ∧
    ∀ conflicting, Atomic ws (Workspace.negation conflicting) ∧
      AddsSymbols ws (Workspace.negation conflicting) (ws.negations.lookup conflicting)
        (pending ws.notWord "not" ++ Negation.parts ws.draft conflicting) := by
  have hrooted := h.built.rooted
  refine ⟨fun operand => ?_, fun conflicting => ?_⟩
  · cases hknown : ws.conjunctionRoot? operand with
    | some root =>
      have hperform := Workspace.conjunction_known hknown
      simp [Atomic, AddsSymbols, hperform, eq_comm]
    | none =>
      have hsettled := Workspace.conjunction_settled hrooted h.built.separators_lt hknown
      refine ⟨hsettled.atomic_iff.mpr fun _ => h.familyFits _, fun root t ht => Or.inr ⟨rfl, _, ?_,
        (hsettled.of_accepted ht).2.2.2⟩⟩
      cases ws.connectives <;>
        simp [Additions.parts, Additions.connect, Additions.addWords, Additions.addSymbols,
          connectiveParts, Function.comp_def]
  · cases hknown : ws.negations.lookup conflicting with
    | some set =>
      have hperform := Workspace.negation_known hknown
      simp [Atomic, AddsSymbols, hperform, eq_comm]
    | none =>
      have hsettled := Workspace.negation_settled hrooted hknown
      exact ⟨hsettled.atomic_iff.mpr fun _ => ⟨h.wordFits _ fun X hX => by simp [hX],
        h.sound.unburied _⟩, fun set t ht => Or.inr ⟨rfl, (hsettled.of_accepted ht).2.2.2⟩⟩

end Registered

/-- A word and its family: what is there once is answered again. -/
def pairedWord : Workspace :=
  ((Workspace.conjunction ⟨1⟩).perform ((Registration.newSymbol ["a"]).perform {}).2).2

theorem registered_pairedWord : Registered pairedWord :=
  (Registered.init.call (.newSymbol ["a"])).call (.conjunction ⟨1⟩)

theorem combination_atomic_pairedWord :
    Atomic pairedWord (Workspace.conjunction ⟨1⟩) ∧
      AddsSymbols pairedWord (Workspace.negation (some ⟨1⟩)) none
        ["not", "negation-for-a", "negation-stop-word-for-a"] := by
  obtain ⟨hconjunction, hnegation⟩ := registered_pairedWord.combination_atomic
  refine ⟨(hconjunction ⟨1⟩).1, ?_⟩
  have hadds := (hnegation (some ⟨1⟩)).2
  have hparts : pending pairedWord.notWord "not" ++ Negation.parts pairedWord.draft (some ⟨1⟩) =
      ["not", "negation-for-a", "negation-stop-word-for-a"] := by decide +kernel
  have hknown : pairedWord.negations.lookup (some ⟨1⟩) = none := by decide +kernel
  rwa [hparts, hknown] at hadds

/-! ### Categories -/

/-- A category is refused with nothing done, except where its singular has no word and its checks and
its term let it begin all the same, to be refused when its instances are registered. -/
theorem Registered.category_atomic_iff {ws : Workspace} (h : Registered ws) (spec : CategoryWords) :
    (Atomic ws (Workspace.newCategory spec) ↔
      (Category.Begins ws spec → spec.entities ≠ [] → Name.slug spec.singular ≠ "")) ∧
    (Atomic ws (Workspace.category spec) ↔ (ws.category? spec.singular = none →
      Category.Begins ws spec → spec.entities ≠ [] → Name.slug spec.singular ≠ "")) := by
  have hsettled := Workspace.newCategory_settled h.built.rooted h.built.separators_lt spec
  have hnew : Atomic ws (Workspace.newCategory spec) ↔
      (Category.Begins ws spec → spec.entities ≠ [] → Name.slug spec.singular ≠ "") :=
    hsettled.atomic_iff.trans (forall_congr' fun hbegins => h.category_fits_iff hbegins)
  refine ⟨hnew, ?_⟩
  cases hknown : ws.category? spec.singular with
  | some c => simp [Atomic, Workspace.category_known hknown]
  | none =>
    rw [Atomic, Workspace.category_unknown hknown]
    simpa [Atomic] using hnew

theorem category_atomic_pairedWord : Atomic pairedWord (Workspace.category
    { singular := "user", plural := "users", isPerson := true, entities := ["Ada"] }) :=
  (registered_pairedWord.category_atomic_iff _).2.mpr fun _ _ _ => by decide +kernel

/-- The symbols of a category without a singular are there when its instances are refused. -/
theorem exists_category_not_atomic : ∃ (ws : Workspace) (spec : CategoryWords), Registered ws ∧
    ¬ Atomic ws (Workspace.newCategory spec) ∧ ¬ Atomic ws (Workspace.category spec) := by
  obtain ⟨spec, hspec⟩ : ∃ spec : CategoryWords,
    spec = { singular := "", plural := "things", isPerson := false, entities := ["x"] } := ⟨_, rfl⟩
  have hnew : ¬ Atomic {} (Workspace.newCategory spec) := by
    subst hspec
    exact not_atomic_of_grown (by decide +kernel) (by decide +kernel)
  refine ⟨{}, spec, .init, hnew, fun hatomic => hnew fun e t ht => hatomic e t ?_⟩
  rw [Workspace.category_unknown rfl, ht]

end QueryGrammar
