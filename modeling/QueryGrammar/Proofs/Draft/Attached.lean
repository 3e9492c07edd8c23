import QueryGrammar.Proofs.Workspace.Built
/-!
What the rules of a draft attach, and where each step takes it from. Registration attaches what it is
given and leaves the rest as it is; filling stop words, the removal of the unused, splitting and edits
attach nothing that was not attached before.
-/
namespace QueryGrammar.Draft

/-- Some rule of a live symbol attaches this. -/
def Attached (d : Draft) (a : Attachment) : Prop := ∃ X, ∃ r ∈ d.rules X, r.semantic = some a

/-- What `e` attaches, `d` does or it is in `G`. Semantics are only added, and none has been pruned. -/
structure AttachesFrom (G : Attachment → Prop) (d e : Draft) : Prop where
  definitions : d.vocabulary.definitions <+: e.vocabulary.definitions
  pruned : e.prunedSemantics = d.prunedSemantics
  attached : ∀ a, e.Attached a → d.Attached a ∨ G a

variable {d e f : Draft} {G H : Attachment → Prop}

theorem attaches_iff_attached {id : SemanticId} : d.Attaches id ↔ ∃ a, d.Attached a ∧ id ∈ a.ids := by
  constructor
  · rintro ⟨X, r, hr, a, ha, hid⟩
    exact ⟨a, ⟨X, r, hr, ha⟩, hid⟩
  · rintro ⟨a, ⟨X, r, hr, ha⟩, hid⟩
    exact ⟨X, r, hr, a, ha, hid⟩

namespace AttachesFrom

theorem refl (d : Draft) : AttachesFrom G d d := ⟨List.prefix_rfl, rfl, fun _ => Or.inl⟩

theorem trans (hde : AttachesFrom G d e) (hef : AttachesFrom G e f) : AttachesFrom G d f where
  definitions := hde.definitions.trans hef.definitions
  pruned := hef.pruned.trans hde.pruned
  attached a ha := (hef.attached a ha).elim (hde.attached a) Or.inr

theorem mono (h : AttachesFrom G d e) (hGH : ∀ a, G a → H a) : AttachesFrom H d e :=
  ⟨h.definitions, h.pruned, fun a ha => (h.attached a ha).imp_right (hGH a)⟩

/-- The rules are all that has changed, and each is an old one or attaches something from `G`. -/
theorem of_rules (hvocabulary : e.vocabulary = d.vocabulary)
    (hpruned : e.prunedSemantics = d.prunedSemantics)
    (hrules : ∀ X, ∀ r ∈ e.rules X, r ∈ d.rules X ∨ ∀ a, r.semantic = some a → G a) :
    AttachesFrom G d e where
  definitions := hvocabulary ▸ List.prefix_rfl
  pruned := hpruned
  attached := by
    rintro a ⟨X, r, hr, ha⟩
    exact (hrules X r hr).imp (fun hr => ⟨X, r, hr, ha⟩) fun h => h a ha

end AttachesFrom

/-! ### Registration -/

theorem attachesFrom_newSymbolOf {isTermSequence : Bool} {parts : List String} {id : SymbolId}
    (h : d.newSymbolOf isTermSequence parts = .ok (id, e)) : AttachesFrom G d e := by
  obtain ⟨name, -, -, heq⟩ := newSymbolOf_eq h
  cases heq
  exact .of_rules rfl rfl fun X r hr => Or.inl (rules_appendSymbol_subset rfl X hr)

theorem attachesFrom_modifyRules {id : SymbolId} {g : List Rule → List Rule}
    (hg : ∀ rules, ∀ r ∈ g rules, r ∈ rules ∨ ∀ a, r.semantic = some a → G a) :
    AttachesFrom G d (d.modifySymbol id fun s => { s with rules := g s.rules }) := by
  refine .of_rules rfl rfl fun X r hr => ?_
  have hmem := (mem_rules_modifyRules.mp hr).2
  split at hmem
  · exact hg _ r hmem
  · exact Or.inl hmem

theorem attachesFrom_appendRule (id : SymbolId) {r : Rule} (hr : ∀ a, r.semantic = some a → G a) :
    AttachesFrom G d (d.appendRule id r) := by
  unfold appendRule
  split
  · refine attachesFrom_modifyRules (g := (· ++ [r])) fun rules q hq => ?_
    rcases List.mem_append.mp hq with hq | hq
    · exact Or.inl hq
    · exact Or.inr (List.mem_singleton.mp hq ▸ hr)
  · exact .refl d

theorem semantic_of_ruleOf {id : SymbolId} {p : Proposal} {r : Rule} (h : d.ruleOf id p = .ok r) :
    r.semantic = p.semantic := by
  unfold ruleOf at h
  simp only [Outcome.bind_eq_ok_iff, Outcome.guard_eq_ok_iff] at h
  obtain ⟨owner, -, x, -, -, _, -, _, -, h⟩ := h
  cases h
  rfl

theorem attachesFrom_addRule {id : SymbolId} {p : Proposal} (h : d.addRule id p = .ok e)
    (hp : ∀ a, p.semantic = some a → G a) : AttachesFrom G d e := by
  obtain ⟨r, hr, h⟩ := Outcome.ok_of_bind h
  cases h
  exact attachesFrom_appendRule id (semantic_of_ruleOf hr ▸ hp)

theorem attachesFrom_addLexical {name : String} {entries : List LexicalEntry}
    {semantic : Option Forest} {id : SymbolId}
    (h : d.addLexical name entries semantic = .ok (id, e))
    (hsemantic : ∀ forest, semantic = some forest → G (.fixed forest)) : AttachesFrom G d e := by
  obtain ⟨kept, f, -, hnew, rfl⟩ := addLexical_eq_ok_iff.mp h
  refine (attachesFrom_newSymbolOf hnew).trans (attachesFrom_modifyRules (g := fun _ => _) ?_)
  intro _ r hr
  obtain ⟨entry, -, rfl⟩ := List.mem_map.mp hr
  refine Or.inr fun a ha => ?_
  obtain ⟨forest, hforest, rfl⟩ := Option.map_eq_some_iff.mp ha
  exact hsemantic forest hforest

theorem attachesFrom_newPhrase {name : String} {parts : List SymbolId} {text : DisplayText}
    {semantic : Option Forest} {id : SymbolId}
    (h : d.newPhrase name parts text semantic = .ok (id, e))
    (hsemantic : ∀ forest, semantic = some forest → G (.fixed forest)) : AttachesFrom G d e := by
  obtain ⟨owner, x, f, -, -, hnew, rfl⟩ := rule_of_newPhrase h
  refine (attachesFrom_newSymbolOf hnew).trans (attachesFrom_appendRule id fun a ha => ?_)
  obtain ⟨forest, hforest, rfl⟩ := Option.map_eq_some_iff.mp ha
  exact hsemantic forest hforest

theorem attachesFrom_newSemantic {definition : Semantic} {id : SemanticId}
    (h : d.newSemantic definition = .ok (id, e)) : AttachesFrom G d e := by
  obtain ⟨-, heq⟩ := newSemantic_eq h
  cases heq
  exact ⟨List.prefix_append _ _, rfl, fun a ha => Or.inl ha⟩

theorem attachesFrom_newEntityCategory {name : String} {instances : List String}
    {id : EntityCategoryId} (h : d.newEntityCategory name instances = .ok (id, e)) :
    AttachesFrom G d e := by
  obtain ⟨-, heq⟩ := newEntityCategory_eq h
  cases heq
  exact ⟨List.prefix_rfl, rfl, fun a ha => Or.inl ha⟩

theorem attachesFrom_deferStopWords (pending : List (SymbolId × Option SymbolId)) :
    AttachesFrom G d { d with pendingStopWords := pending } :=
  ⟨List.prefix_rfl, rfl, fun _ ha => Or.inl ha⟩

/-! ### Finishing -/

/-- Stop words attach nothing. -/
theorem attachesFrom_filled (d : Draft) : AttachesFrom G d d.filled := by
  have hone : ∀ (stopWord : SymbolId) (words : List String),
      Change.Keeps (AttachesFrom G d) (StopWords.fillOne stopWord words) := by
    refine fun stopWord words => Change.Keeps.forM fun word _ => Change.Keeps.call fun f _ g hf h => ?_
    obtain ⟨_, hadd, heq⟩ := Outcome.ok_of_bind h
    cases heq
    exact hf.trans (attachesFrom_addRule hadd (by simp [Proposal.terminal]))
  have hall : ∀ settled : List (SymbolId × List String), Change.Keeps (AttachesFrom G d) (do
      settled.forM fun x => StopWords.fillOne x.1 x.2
      return settled.length : Change Draft Nat) := fun settled =>
    Change.Keeps.bind (Change.Keeps.forM fun x _ => hone x.1 x.2) fun _ => Change.Keeps.pure _
  rw [filled, StopWords.fill, Change.perform_bind, Change.perform_get]
  dsimp only
  rw [Change.perform_bind, Change.perform_set]
  exact hall _ _ (attachesFrom_deferStopWords [])

theorem attached_of_trimmed (hstart : d.Expands start) {a : Attachment}
    (h : d.trimmed.Attached a) : d.Attached a := by
  obtain ⟨X, r, hr, ha⟩ := h
  exact ⟨X, r, ((mem_rules_trimmed_iff hstart).mp hr).expands.1, ha⟩

theorem Tokenized.attached (h : Tokenized d.Holds d d.liveSymbols e) {a : Attachment}
    (ha : e.Attached a) : d.Attached a := by
  obtain ⟨X, r, hr, ha⟩ := ha
  rcases h.rule_cases (fun _ _ => Holds.live) hr with ⟨-, q, hq, hsplits⟩ | hmade
  · exact ⟨X, q, hq, hsplits.semantic_eq.symm.trans ha⟩
  · cases hmade <;> simp at ha

theorem attached_of_withEdits {includeTrees : Bool} {a : Attachment}
    (h : (d.withEdits includeTrees).2.Attached a) : d.Attached a := by
  obtain ⟨X, r, hr, ha⟩ := h
  rcases rule_withEdits_cases includeTrees hr with hr | ⟨parent, hparent, -, hmem⟩
  · exact ⟨X, r, hr, ha⟩
  · exact ⟨X, parent, hparent, (semantic_of_mem_editsOf hmem).symm.trans ha⟩

/-- What a finished draft attaches was attached before. -/
theorem Consistent.attached_of_complete (hd : d.Consistent) (hstart : d.Expands start) (o : Options)
    (unused : List String) {a : Attachment} (h : (d.trimmed.complete o unused).2.Attached a) :
    d.trimmed.Attached a := by
  rw [complete_draft] at h
  exact (hd.trimmed hstart).tokenized.attached (attached_of_withEdits h)

end QueryGrammar.Draft
