import QueryGrammar.Proofs.Conjunction.Family
import QueryGrammar.Proofs.Workspace.Names
/-!
The connectives of a workspace. They are registered together under names of their own, and a name
stays at its number whatever happens to the draft, so the connectives are different symbols and
different functions after any calls.
-/
namespace QueryGrammar

open Change Conjunction

/-! ### The names of the connectives -/

namespace Conjunction

variable {c : Connectives} {d e : Draft}

def separatorName : Separator → String
  | .and => "[and]"
  | .or => "[or]"
  | .comma => "[comma]"

/-- The connectives stand in the draft under their names. -/
structure Named (d : Draft) (c : Connectives) : Prop where
  separators : ∀ s, (d.symbols.map (·.name))[(separatorOf c s).index]? = some (separatorName s)
  intersect : (d.vocabulary.definitions.map (·.name))[c.intersect.index]? = some intersectName
  union : (d.vocabulary.definitions.map (·.name))[c.union.index]? = some unionName

theorem Named.mono (h : Named d c) (hde : d.KeepsNames e) : Named e c where
  separators s := hde.symbols _ _ (h.separators s)
  intersect := hde.semantics _ _ h.intersect
  union := hde.semantics _ _ h.union

theorem Named.injective (h : Named d c) : Function.Injective (separatorOf c) := by
  intro s s' heq
  have hname : separatorName s = separatorName s' := by
    have hs := h.separators s
    rw [heq, h.separators s'] at hs
    exact (Option.some.inj hs).symm
  cases s <;> cases s' <;> first | rfl | exact absurd hname (by decide)

theorem Named.intersect_ne_union (h : Named d c) : c.intersect ≠ c.union := by
  intro heq
  have hname := h.intersect
  rw [heq, h.union] at hname
  exact absurd (Option.some.inj hname) (by decide)

theorem Named.lt_length (h : Named d c) (s : Separator) :
    (separatorOf c s).index < d.symbols.length := by
  simpa using (List.getElem?_eq_some_iff.mp (h.separators s)).1

end Conjunction

/-- The draft is consistent, and the connectives stand in it if they are registered. -/
def Connected (c : Option Connectives) (d : Draft) : Prop :=
  d.Consistent ∧ ∀ k, c = some k → Named d k

theorem Connected.mono {c : Option Connectives} {d e : Draft} (h : Connected c d)
    (he : e.Consistent ∧ d.KeepsNames e) : Connected c e :=
  ⟨he.1, fun k hk => (h.2 k hk).mono he.2⟩

theorem connected_callInvariant (c : Option Connectives) : CallInvariant (Connected c) where
  newSymbol hd h := hd.mono ((keepsNames_callInvariant _).newSymbol ⟨hd.1, .refl _⟩ h)
  addRule hd h := hd.mono ((keepsNames_callInvariant _).addRule ⟨hd.1, .refl _⟩ h)
  addLexical hd h := hd.mono ((keepsNames_callInvariant _).addLexical ⟨hd.1, .refl _⟩ h)
  newPhrase hd h := hd.mono ((keepsNames_callInvariant _).newPhrase ⟨hd.1, .refl _⟩ h)
  newSemantic hd h := hd.mono ((keepsNames_callInvariant _).newSemantic ⟨hd.1, .refl _⟩ h)
  newEntityCategory hd h := hd.mono ((keepsNames_callInvariant _).newEntityCategory ⟨hd.1, .refl _⟩ h)
  deferStopWords pending hd :=
    hd.mono ((keepsNames_callInvariant _).deferStopWords pending ⟨hd.1, .refl _⟩)
  trimmed hd hstart := hd.mono ((keepsNames_callInvariant _).trimmed ⟨hd.1, .refl _⟩ hstart)
  complete o unused hd hstart :=
    hd.mono ((keepsNames_callInvariant _).complete o unused ⟨hd.1, .refl _⟩ hstart)

/-! ### Their registration -/

namespace Registration

variable {ws ws' : Workspace}

/-- What a call on the draft that answers has done. -/
theorem call_eq_ok {α : Type} {f : Draft → Outcome (α × Draft)} {a : α}
    (h : (call f).perform ws = (.ok a, ws')) :
    ∃ e, f ws.draft = .ok (a, e) ∧ ws' = { ws with draft := e } := by
  obtain ⟨houtcome, rfl⟩ := Prod.mk.inj h
  refine ⟨((Change.call f).perform ws.draft).2, perform_call_eq_ok_iff.mp ?_, rfl⟩
  exact Prod.ext houtcome rfl

theorem keepsNames_addWord {name written : String} {accepted substituted : List String}
    {cost : Option Float} {id : SymbolId} (hname : Name.symbol [name] = .ok written)
    (h : (addWord name accepted substituted cost).perform ws = (.ok id, ws')) :
    ws.draft.KeepsNames ws'.draft ∧
      (ws'.draft.symbols.map (·.name))[id.index]? = some written := by
  obtain ⟨e, hcall, rfl⟩ := call_eq_ok h
  obtain ⟨f, rules, hnew, -, rfl⟩ := Draft.addLexical_eq hcall
  obtain ⟨n, hn, -, heq⟩ := Draft.newSymbolOf_eq hnew
  obtain rfl : n = written := Except.ok.inj (hn.symm.trans hname)
  obtain ⟨rfl, rfl⟩ := Prod.mk.inj heq
  have hkeeps := Draft.keepsNames_modifyRules (ws.draft.appendSymbol { name := n, isTermSequence := true }).2
    ⟨ws.draft.symbols.length⟩ fun _ => rules
  refine ⟨(ws.draft.keepsNames_appendSymbol _).trans hkeeps, hkeeps.symbols _ _ ?_⟩
  simp [Draft.appendSymbol]

theorem keepsNames_newSemantic {definition : Semantic} {id : SemanticId}
    (h : (call (·.newSemantic definition)).perform ws = (.ok id, ws')) :
    ws.draft.KeepsNames ws'.draft ∧
      (ws'.draft.vocabulary.definitions.map (·.name))[id.index]? = some definition.name := by
  obtain ⟨e, hcall, rfl⟩ := call_eq_ok h
  have hkeeps := Draft.keepsNames_newSemantic hcall
  obtain ⟨-, heq⟩ := Draft.newSemantic_eq hcall
  cases heq
  exact ⟨hkeeps, by simp [Vocabulary.size]⟩

end Registration

namespace Workspace

open Registration

variable {ws ws' : Workspace} {c : Connectives}

/-- Connectives that are there are taken; otherwise they are registered under their names. -/
theorem connectivesOnce_eq_ok (h : connectivesOnce.perform ws = (.ok c, ws')) :
    ws.connectives = some c ∧ ws' = ws ∨
      ws'.connectives = some c ∧ Named ws'.draft c ∧ ws.draft.KeepsNames ws'.draft := by
  unfold connectivesOnce at h
  obtain ⟨_, _, hget, h⟩ := perform_bind_eq_ok_iff.mp h
  cases hget
  split at h
  next k hk =>
    cases h
    exact Or.inl ⟨hk, rfl⟩
  next =>
    obtain ⟨_, _, hget, h⟩ := perform_bind_eq_ok_iff.mp h
    cases hget
    obtain ⟨_, _, hcheck, h⟩ := perform_bind_eq_ok_iff.mp h
    obtain ⟨-, rfl⟩ := Prod.mk.inj hcheck
    obtain ⟨and, ws1, hand, h⟩ := perform_bind_eq_ok_iff.mp h
    obtain ⟨or, ws2, hor, h⟩ := perform_bind_eq_ok_iff.mp h
    obtain ⟨comma, ws3, hcomma, h⟩ := perform_bind_eq_ok_iff.mp h
    obtain ⟨intersect, ws4, hintersect, h⟩ := perform_bind_eq_ok_iff.mp h
    obtain ⟨union, ws5, hunion, h⟩ := perform_bind_eq_ok_iff.mp h
    cases h
    have hnameAnd : Name.symbol ["and"] = .ok (separatorName .and) := rfl
    have hnameOr : Name.symbol ["or"] = .ok (separatorName .or) := rfl
    have hnameComma : Name.symbol ["comma"] = .ok (separatorName .comma) := rfl
    obtain ⟨hkeeps1, hand⟩ := keepsNames_addWord hnameAnd hand
    obtain ⟨hkeeps2, hor⟩ := keepsNames_addWord hnameOr hor
    obtain ⟨hkeeps3, hcomma⟩ := keepsNames_addWord hnameComma hcomma
    obtain ⟨hkeeps4, hintersect⟩ := keepsNames_newSemantic hintersect
    obtain ⟨hkeeps5, hunion⟩ := keepsNames_newSemantic hunion
    have hlast := hkeeps3.trans (hkeeps4.trans hkeeps5)
    refine Or.inr ⟨rfl, ⟨fun s => ?_, hkeeps5.semantics _ _ hintersect, hunion⟩,
      hkeeps1.trans (hkeeps2.trans hlast)⟩
    cases s with
    | and => exact (hkeeps2.trans hlast).symbols _ _ hand
    | or => exact hlast.symbols _ _ hor
    | comma => exact (hkeeps4.trans hkeeps5).symbols _ _ hcomma

theorem refused_connectivesOnce :
    KeepsRefused (fun ws => ws.connectives = none) connectivesOnce := by
  have hcall : ∀ {α : Type} (f : Draft → Outcome (α × Draft)),
      Keeps (fun ws : Workspace => ws.connectives = none) (call f) := fun _ _ hnone => hnone
  refine KeepsRefused.bind Keeps.get fun ws => ?_
  split
  · exact fun _ _ _ _ h => by cases h
  · refine KeepsRefused.bind Keeps.get fun ws => ?_
    refine KeepsRefused.bind (Keeps.ofOutcome _) fun _ => ?_
    refine KeepsRefused.bind (hcall _) fun _ => ?_
    refine KeepsRefused.bind (hcall _) fun _ => ?_
    refine KeepsRefused.bind (hcall _) fun _ => ?_
    refine KeepsRefused.bind (hcall _) fun _ => ?_
    refine KeepsRefused.bind (hcall _) fun _ => ?_
    exact fun _ _ _ _ h => by cases h

theorem connected_connectivesOnce : KeepsDraft Connected connectivesOnce := by
  intro ws hws
  refine ⟨keeps_connectivesOnce consistent_stepInvariant.toPlainStepInvariant ws hws.1, fun k hk => ?_⟩
  cases hperform : connectivesOnce.perform ws with
  | mk outcome ws' =>
    rw [hperform] at hk
    cases outcome with
    | ok c =>
      rcases connectivesOnce_eq_ok hperform with ⟨-, rfl⟩ | ⟨hsome, hnamed, -⟩
      · exact hws.2 k hk
      · rw [hsome] at hk
        exact Option.some.inj hk ▸ hnamed
    | error e =>
      cases hbefore : ws.connectives with
      | none =>
        rw [refused_connectivesOnce ws e ws' hbefore hperform] at hk
        cases hk
      | some c =>
        have hsame : connectivesOnce.perform ws = (.ok c, ws) := by
          rw [connectivesOnce, perform_bind, perform_get]
          dsimp only
          rw [hbefore]
          rfl
        rw [hsame] at hperform
        cases hperform

end Workspace

theorem Built.connected {ws : Workspace} (h : Built ws) : Connected ws.connectives ws.draft :=
  h.induction_connected connected_callInvariant Workspace.connected_connectivesOnce
    ⟨Draft.consistent_empty, by simp⟩

end QueryGrammar
