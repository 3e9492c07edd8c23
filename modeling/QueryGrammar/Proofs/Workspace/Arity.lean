import QueryGrammar.Proofs.Semantic.Deferred
import QueryGrammar.Proofs.Workspace.Attached
/-!
Arities of what rules attach. Registration asks of an attachment only that its semantics are
registered, so a tree or chain that was composed for another vocabulary is attached as it is. What a
workspace attaches by itself has the right arities, and so has what was composed with its own
definitions: every call keeps the arities right exactly if what it is given, and accepts, has them.
-/
namespace QueryGrammar

namespace Vocabulary

/-- Every node of the forest has a definition and as many children as it allows. -/
inductive WithinBounds (v : Vocabulary) : Forest → Prop where
  | intro {forest : Forest} (bounded : ∀ n ∈ forest, v.Bounded n)
      (children : ∀ n ∈ forest, WithinBounds v n.children) : WithinBounds v forest

/-- The attachment has the right arities by these definitions. -/
def Admits (v : Vocabulary) : Attachment → Prop
  | .fixed forest => v.WithinBounds forest
  | .deferred chain => v.Chainable chain

/-- The attachment has been composed with these definitions. -/
def Composes (v : Vocabulary) : Attachment → Prop
  | .fixed forest => v.Canonical forest
  | .deferred chain => v.defer chain = .ok chain

variable {v w : Vocabulary} {forest : Forest}

/-! ### What is composed -/

theorem Canonical.withinBounds (h : v.Canonical forest) : v.WithinBounds forest := by
  induction h with
  | intro _ _ bounded _ ih => exact .intro bounded ih

theorem Composes.admits {a : Attachment} (h : v.Composes a) : v.Admits a := by
  cases a with
  | fixed forest => exact Canonical.withinBounds h
  | deferred chain => exact chainable_of_defer h

/-! ### Growing -/

theorem Extends.withinBounds (h : w.Extends v) (hforest : v.WithinBounds forest) :
    w.WithinBounds forest := by
  induction hforest with
  | intro bounded _ ih => exact .intro (fun n hn => h.bounded (bounded n hn)) ih

theorem Extends.admits {a : Attachment} (h : w.Extends v) (ha : v.Admits a) : w.Admits a := by
  cases a with
  | fixed forest => exact h.withinBounds ha
  | deferred chain => exact h.chainable ha

theorem JoinsOperands.admits {f : SemanticId} (h : v.JoinsOperands f) : v.Admits (.deferred [f]) := by
  obtain ⟨name, hname⟩ := h
  refine ⟨by simp, ?_, by simp⟩
  rw [List.forall_mem_singleton]
  exact ⟨_, hname, rfl⟩

end Vocabulary

/-- What a registration of several symbols attaches by itself has the right arities. -/
theorem OwnAttachment.admits {ws : Workspace} (hws : Built ws) {v : Vocabulary} {a : Attachment}
    (h : OwnAttachment ws.connectives ws.draft v a)
    (hgrown : ws.draft.vocabulary.definitions <+: v.definitions) : v.Admits a := by
  cases h with
  | leaf new composed => exact (Vocabulary.canonical_leaf composed).withinBounds
  | joining new joins => exact joins.admits
  | @shared k f known mem =>
    have hjoins : ws.draft.vocabulary.JoinsOperands f := by
      obtain ⟨hintersect, hunion⟩ := hws.rooted.functions k known
      rcases List.mem_pair.mp mem with rfl | rfl
      · exact ⟨_, hintersect⟩
      · exact ⟨_, hunion⟩
    exact ((Vocabulary.extends_of_isPrefix hgrown).joinsOperands hjoins).admits

/-- Everything that rules attach has the right arities by the draft's own definitions. -/
def Draft.ArityCorrect (d : Draft) : Prop := ∀ a, d.Attached a → d.vocabulary.Admits a

/-- What the call is given to attach, and attaches, has the right arities. -/
def Fits {α : Type} (ws : Workspace) (x : Registration α) (g : Option Attachment) : Prop :=
  ∀ a, g = some a → (x.perform ws).2.draft.Attached a → (x.perform ws).2.draft.vocabulary.Admits a

namespace CallWith

variable {α : Type} {x : Registration α} {g : Option Attachment} {ws : Workspace}

theorem extended (h : CallWith x g) (hws : Built ws) :
    (x.perform ws).2.draft.vocabulary.Extends ws.draft.vocabulary :=
  Vocabulary.extends_of_isPrefix (h.moduleCall.grows hws).2

/-- What was composed with the definitions at hand fits. -/
theorem fits_of_composes (h : CallWith x g) (hws : Built ws)
    (hg : ∀ a, g = some a → ws.draft.vocabulary.Composes a) : Fits ws x g :=
  fun a ha _ => (h.extended hws).admits (hg a ha).admits

/-- A call keeps the arities right exactly if what it is given fits. -/
theorem arityCorrect_iff (h : CallWith x g) (hws : Built ws) (hcorrect : ws.draft.ArityCorrect) :
    (x.perform ws).2.draft.ArityCorrect ↔ Fits ws x g := by
  refine ⟨fun hafter a _ ha => hafter a ha, fun hfits a ha => ?_⟩
  rcases h.attached_cases hws ha with hbefore | hgiven | hown
  · exact (h.extended hws).admits (hcorrect a hbefore)
  · exact hfits a hgiven ha
  · exact hown.admits hws (h.moduleCall.grows hws).2

end CallWith

theorem BuiltBy.arityCorrect {ws : Workspace} (h : BuiltBy (fun _ ws x g => Fits ws x g) ws) :
    ws.draft.ArityCorrect := by
  induction h with
  | init =>
    rintro a ⟨X, r, hr, -⟩
    simp [Draft.rules_empty] at hr
  | call before hcall suits ih => exact (hcall.arityCorrect_iff before.built ih).mpr suits

/-- As long as calls are given only what fits, as everything does that was composed with the
definitions at hand, all arities are right; and the first call that attaches something else, which
nothing refuses, makes them wrong. -/
theorem Built.arityCorrect_exactly {ws : Workspace} (hws : Built ws) :
    (BuiltBy (fun _ ws x g => Fits ws x g) ws → ws.draft.ArityCorrect) ∧
    ∀ (α : Type) (x : Registration α) (g : Option Attachment), CallWith x g →
      ((∀ a, g = some a → ws.draft.vocabulary.Composes a) → Fits ws x g) ∧
      (ws.draft.ArityCorrect → ((x.perform ws).2.draft.ArityCorrect ↔ Fits ws x g)) := by
  refine ⟨fun hrun => hrun.arityCorrect, fun α x g h => ⟨fun hg => ?_, fun hcorrect => ?_⟩⟩
  · exact h.fits_of_composes hws hg
  · exact h.arityCorrect_iff hws hcorrect

/-- A function of one child, an argument, and a term that attaches the forest. -/
def showing (forest : Forest) : Workspace :=
  let shown := ((Registration.call (·.newSemantic (.function "shown" 1 1))).perform {}).2
  let colored := ((Registration.call (·.newSemantic (.argument "color"))).perform shown).2
  ((Registration.addRule Draft.start ((Proposal.terminal "hi" .verbatim).fixed forest)).perform
    colored).2

theorem arityCorrect_showing : (showing [.mk ⟨0⟩ [.mk ⟨1⟩ []]]).draft.ArityCorrect ∧
    (showing [.mk ⟨0⟩ [.mk ⟨1⟩ []]]).draft.Attached (.fixed [.mk ⟨0⟩ [.mk ⟨1⟩ []]]) := by
  have hnone : ∀ (α : Type) (x : Registration α) (ws : Workspace), Fits ws x none :=
    fun _ _ _ _ h => nomatch h
  have hcolored : BuiltBy (fun _ ws x g => Fits ws x g) _ :=
    (BuiltBy.init.call (.newSemantic (.function "shown" 1 1)) (hnone _ _ _)).call
      (.newSemantic (.argument "color")) (hnone _ _ _)
  have hrule := CallWith.addRule Draft.start
    ((Proposal.terminal "hi" .verbatim).fixed [.mk ⟨0⟩ [.mk ⟨1⟩ []]])
  have hfits := (hcolored.built.arityCorrect_exactly.2 _ _ _ hrule).1 fun a ha => by
    obtain rfl := Option.some.inj ha
    exact (@Vocabulary.canonical_leaf _ _ ⟨1⟩ rfl).reduce (rfl : Vocabulary.reduce _ ⟨0⟩ _ = _)
  have hrun := hcolored.call hrule hfits
  exact ⟨hrun.built.arityCorrect_exactly.1 hrun, Draft.start, _, List.mem_of_getElem? (i := 0) rfl,
    rfl⟩

/-- A function that was left without its child elsewhere is attached as it is. -/
theorem exists_not_arityCorrect : ∃ ws, Registered ws ∧ ¬ ws.draft.ArityCorrect := by
  refine ⟨showing [.mk ⟨0⟩ []], ?_, fun h => ?_⟩
  · exact ((Registered.init.call (.newSemantic _)).call (.newSemantic _)).call (.addRule _ _)
  · have hbounds := h (.fixed [.mk ⟨0⟩ []]) ⟨Draft.start, _, List.mem_of_getElem? (i := 0) rfl, rfl⟩
    obtain ⟨hbounded, -⟩ := hbounds
    obtain ⟨d, hd, -, hcount⟩ := hbounded _ (List.mem_singleton.mpr rfl)
    cases hd
    exact absurd (hcount rfl).1 (by decide)

end QueryGrammar
