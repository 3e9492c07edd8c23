import QueryGrammar.Proofs.Draft.Renumbered
import QueryGrammar.Proofs.Finish.Restored
import QueryGrammar.Proofs.Workspace.Again
/-!
A document shows what is registered and not in which order. In a draft that calls lead to, rows are
told apart by how they are written, with the costs of edits too, although an insertion may cost
infinitely much. So two such drafts that differ in their numbers, in the order of their rules and in
repeated rules only have the same document and the same digest.
-/
namespace QueryGrammar

open Change

/-! ### Costs as they are written -/

namespace Cost

open Float.Model

variable {x y : Float}

theorem Nonnegative.amount_of_not_finite (hx : Nonnegative x) (hfinite : x.isFinite = false) :
    amount x = ⊤ := by
  have hheld := hx.held
  have hfinite : x.toModel.unpack.isFinite = false := hfinite
  unfold amount
  cases hcase : x.toModel.unpack with
  | notANumber =>
    rw [hcase] at hheld
    exact hheld.elim
  | infinity s => rfl
  | zero s => simp [hcase, UnpackedFloat.isFinite] at hfinite
  | finite s m e hm => simp [hcase, UnpackedFloat.isFinite] at hfinite

/-- Among the numbers that are not negative only infinity is not written as a number, so they are
told apart by how they are written. -/
theorem Nonnegative.eq_of_float_eq (hx : Nonnegative x) (hy : Nonnegative y)
    (h : Json.float x = Json.float y) : x = y := by
  by_cases hxfinite : x.isFinite = true
  · exact Json.float_inj hxfinite h
  · by_cases hyfinite : y.isFinite = true
    · exact (Json.float_inj hyfinite h.symm).symm
    · have hzero : (-0.0 : Float).isFinite = true := by decide
      have hxne : x ≠ -0.0 := fun heq => hxfinite (heq ▸ hzero)
      have hyne : y ≠ -0.0 := fun heq => hyfinite (heq ▸ hzero)
      apply eq_of_beq (unsigned_of_le hx hxne) (unsigned_of_le hy hyne)
      rw [beq_iff_amount hx hy, hx.amount_of_not_finite (by simpa using hxfinite),
        hy.amount_of_not_finite (by simpa using hyfinite)]

end Cost

/-- What the edit of a rule costs, if it is one, is not negative. -/
def Rule.NonnegativeEdit (r : Rule) : Prop := ∀ x, r.edit = some x → Cost.Nonnegative x.cost

namespace Draft

variable {d e : Draft}

/-! ### Rows as they are written -/

/-- Names of entity categories are given once. -/
def CategoriesOnce (d : Draft) : Prop := (d.entityCategories.map (·.name)).Nodup

theorem categoriesOnce_stepInvariant : StepInvariant CategoriesOnce where
  newSymbol hd h := by
    obtain ⟨name, -, -, heq⟩ := newSymbolOf_eq h
    cases heq
    exact hd
  addRule hd h := by
    obtain ⟨r, -, h⟩ := Outcome.ok_of_bind h
    cases h
    rw [CategoriesOnce, rest_appendRule]
    exact hd
  addLexical hd h := by
    obtain ⟨f, rules, hnew, -, rfl⟩ := addLexical_eq h
    obtain ⟨name, -, -, heq⟩ := newSymbolOf_eq hnew
    cases heq
    exact hd
  newPhrase hd h := by
    obtain ⟨f, r, hnew, -, -, rfl⟩ := newPhrase_eq h
    obtain ⟨name, -, -, heq⟩ := newSymbolOf_eq hnew
    cases heq
    rw [CategoriesOnce, rest_appendRule]
    exact hd
  newSemantic hd h := by
    obtain ⟨-, heq⟩ := newSemantic_eq h
    cases heq
    exact hd
  newEntityCategory hd h := by
    obtain ⟨hnew, heq⟩ := newEntityCategory_eq h
    cases heq
    exact nodup_names_concat hd hnew
  deferStopWords _ hd := hd

theorem CategoriesOnce.trimmed (hd : d.CategoriesOnce) : d.trimmed.CategoriesOnce := by
  rw [CategoriesOnce, names_trimmed_categories]
  exact hd

theorem categoriesOnce_callInvariant :
    CallInvariant fun d => d.Consistent ∧ d.CategoriesOnce where
  toStepInvariant := consistent_stepInvariant.and categoriesOnce_stepInvariant
  trimmed hd hstart := ⟨hd.1.trimmed hstart, hd.2.trimmed⟩
  complete {d} o unused hd hstart := by
    refine ⟨(hd.1.complete_trimmed hstart o unused).1, ?_⟩
    rw [CategoriesOnce, complete_draft, (addsRules_withEdits d.trimmed.tokenize.2 o.includeTrees).rest,
      (hd.1.trimmed hstart).tokenized.rest]
    exact hd.2.trimmed

/-- Edits are made of costs that were checked, and what is inserted costs no less than nothing. -/
theorem nonnegativeEdit_callInvariant :
    CallInvariant fun d => (d.Searchable ∧ d.Shaped) ∧ Every Rule.NonnegativeEdit d where
  toStepInvariant := by
    apply (searchable_stepInvariant.and shaped_callInvariant.toStepInvariant).and
    exact every_stepInvariant fun r _ hplain x hx => by simp [hplain] at hx
  trimmed hd hstart := by
    refine ⟨⟨hd.1.1.trimmed hstart, hd.1.2.trimmed hstart⟩, ?_⟩
    exact fun X r hr => hd.2 X r ((mem_rules_trimmed_iff hstart).mp hr).expands.1
  complete {d} o unused hd hstart := by
    obtain ⟨⟨hsearchable, hshaped⟩, hedits⟩ := hd
    refine ⟨⟨searchable_callInvariant.complete o unused hsearchable hstart,
      shaped_callInvariant.complete o unused hshaped hstart⟩, fun X r hr x hx => ?_⟩
    rcases rule_withEdits_cases o.includeTrees hr with hr | ⟨parent, hparent, -, hmem⟩
    · rcases (hsearchable.consistent.trimmed hstart).tokenized.rule_cases (fun _ _ h => h.live) hr
        with ⟨-, q, hq, hsplits⟩ | hmade
      · have hq := ((mem_rules_trimmed_iff hstart).mp hq).expands.1
        exact hedits X q hq x (hsplits.edit_eq ▸ hx)
      · rw [hmade.edit_eq] at hx
        simp at hx
    · apply nonnegative_of_mem_editsOf (hsearchable.tokenize_trimmed hstart)
        (hshaped.trimmed hstart).tokenize hparent hmem
      simp [Rule.costs, hx]

end Draft

section Built

variable {ws ws' : Workspace}

theorem Built.categoriesOnce (h : Built ws) : ws.draft.CategoriesOnce :=
  (h.induction Draft.categoriesOnce_callInvariant ⟨Draft.consistent_empty, .nil⟩).2

theorem Built.nonnegativeEdit (h : Built ws) {X : SymbolId} {r : Rule}
    (hr : r ∈ ws.draft.rules X) : r.NonnegativeEdit := by
  have hempty : Draft.Every Rule.NonnegativeEdit Draft.empty := fun X r hr => by
    simp [Draft.rules_empty] at hr
  exact (h.induction Draft.nonnegativeEdit_callInvariant
    ⟨⟨Draft.searchable_empty, Draft.shaped_empty⟩, hempty⟩).2 X r hr

/-- In a draft that calls lead to, rows that are written alike are alike. -/
theorem Built.namedRule_eq_of_sortKey_eq (h : Built ws) {X : SymbolId} {r q : Rule}
    (hr : r ∈ ws.draft.rules X) (hq : q ∈ ws.draft.rules X)
    (hkey : (ws.draft.namedRule r).sortKey = (ws.draft.namedRule q).sortKey) :
    ws.draft.namedRule r = ws.draft.namedRule q := by
  refine NamedRule.eq_of_sortKey_eq_of_edit (fun _ => h.searchable.finite_insertionCost hr)
    (fun _ => h.shaped.finite_transpositionCost hr) ?_ hkey
  intro x hx y hy
  obtain ⟨a, ha, rfl⟩ := Option.map_eq_some_iff.mp hx
  obtain ⟨b, hb, rfl⟩ := Option.map_eq_some_iff.mp hy
  have hcost : ∀ a, (ws.draft.vocabulary.namedEdit a).cost = a.cost := by
    rintro (_ | _) <;> rfl
  rw [hcost, hcost]
  exact (h.nonnegativeEdit hr a ha).eq_of_float_eq (h.nonnegativeEdit hq b hb)

/-- The document of a draft shows its content only: neither its numbers, nor the order of its rules,
nor how often a rule is there. -/
theorem Built.ofDraft_renumbered (h : Built ws) (h' : Built ws') {f : Renumbering}
    (hsame : f.Carries ws.draft ws'.draft) :
    Document.ofDraft ws.draft = Document.ofDraft ws'.draft ∧
      (Document.ofDraft ws.draft).digest = (Document.ofDraft ws'.draft).digest := by
  have hdocument := hsame.ofDraft_eq h.consistent h'.consistent h.categoriesOnce h'.categoriesOnce
    fun X r hr q hq hkey => h.namedRule_eq_of_sortKey_eq hr hq hkey
  exact ⟨hdocument, congrArg Document.digest hdocument⟩

end Built

/-- A guest is welcomed by name. -/
def guest (name : String) : Registration Unit := do
  let welcomed ← Registration.semantic (.argument name)
  let kind ← Registration.call (·.newEntityCategory name [name])
  let symbol ← Registration.newSymbol [name]
  Registration.addRule symbol ((Proposal.terminal name .verbatim).fixed [.mk welcomed []])
  Registration.addRule symbol { rhs := .placeholder kind }
  Registration.addRule Draft.start (.unary symbol)

/-- Two guests in a row. -/
def guests (first second : String) : Registration Unit := do
  guest first
  guest second

/-- What two guests leave behind. -/
def guestsDraft (first second : String) : Draft :=
  { Draft.empty with
    symbols := [
      { name := "[start]"
        rules := [{ expansion := .unary ⟨1⟩ false }, { expansion := .unary ⟨2⟩ false }] },
      { name := "[" ++ first ++ "]"
        rules := [{ expansion := .terminal first .verbatim, semantic := some (.fixed [.mk ⟨0⟩ []]) },
          { expansion := .placeholder ⟨0⟩ }] },
      { name := "[" ++ second ++ "]"
        rules := [{ expansion := .terminal second .verbatim, semantic := some (.fixed [.mk ⟨1⟩ []]) },
          { expansion := .placeholder ⟨1⟩ }] }]
    vocabulary := ⟨[.argument first, .argument second]⟩
    entityCategories := [{ name := first, instances := [first] },
      { name := second, instances := [second] }] }

/-- The two guests swap their numbers. -/
def swapGuests : Renumbering where
  symbol := Equiv.swap ⟨1⟩ ⟨2⟩
  semantic := Equiv.swap ⟨0⟩ ⟨1⟩
  category := Equiv.swap ⟨0⟩ ⟨1⟩

theorem carries_guestsDraft (first second : String) :
    swapGuests.Carries (guestsDraft first second) (guestsDraft second first) where
  symbols := by
    have hlive : ∀ first second : String,
        (guestsDraft first second).liveSymbols = [⟨0⟩, ⟨1⟩, ⟨2⟩] := fun _ _ => rfl
    rw [hlive, hlive]
    exact Equiv.swap_bijOn_self (by simp)
  names := by
    change ∀ X ∈ [(⟨0⟩ : SymbolId), ⟨1⟩, ⟨2⟩], _
    simp only [List.forall_mem_cons]
    exact ⟨rfl, rfl, rfl, by simp⟩
  start := rfl
  semantics := Equiv.swap_bijOn_self (s := {id : SemanticId | id.index < 2}) (by simp)
  definitions := by
    rintro ⟨_ | _ | i⟩ h
    · rfl
    · rfl
    · exact absurd h (by simp [guestsDraft, Vocabulary.size])
  liveSemantics := by
    rintro ⟨_ | _ | i⟩ h
    · exact iff_of_true (List.mem_cons_of_mem _ List.mem_cons_self) List.mem_cons_self
    · exact iff_of_true List.mem_cons_self (List.mem_cons_of_mem _ List.mem_cons_self)
    · exact absurd h (by simp [guestsDraft, Vocabulary.size])
  categories := by
    have hlive : ∀ first second : String,
        (guestsDraft first second).liveEntityCategories = [⟨0⟩, ⟨1⟩] := fun _ _ => rfl
    rw [hlive, hlive]
    exact Equiv.swap_bijOn_self (by simp)
  instances := by
    rintro ⟨_ | _ | i⟩ c h
    · cases h
      exact ⟨_, rfl, rfl, rfl⟩
    · cases h
      exact ⟨_, rfl, rfl, rfl⟩
    · simp [guestsDraft, Draft.entityCategory?] at h
  rules := by
    change ∀ X ∈ [(⟨0⟩ : SymbolId), ⟨1⟩, ⟨2⟩], _
    simp only [List.forall_mem_cons]
    refine ⟨fun r => ?_, fun r => Iff.rfl, fun r => Iff.rfl, by simp⟩
    exact (List.Perm.swap _ _ []).mem_iff

theorem built_guests (first second : String) : Built ((guests first second).perform {}).2 := by
  have hguest : ∀ name, Keeps Built (guest name) := fun name =>
    .bind (ModuleCall.register (.semantic _)).keepsBuilt fun _ =>
      .bind (ModuleCall.register (.newEntityCategory _ _)).keepsBuilt fun _ =>
        .bind (ModuleCall.register (.newSymbol _)).keepsBuilt fun _ =>
          .bind (ModuleCall.register (.addRule _ _)).keepsBuilt fun _ =>
            .bind (ModuleCall.register (.addRule _ _)).keepsBuilt fun _ =>
              (ModuleCall.register (.addRule _ _)).keepsBuilt
  exact (Change.Keeps.bind (hguest first) fun _ => hguest second) {} .init

/-- Guests are shown the same in whatever order they come. -/
theorem ofDraft_renumbered_guests :
    swapGuests.Carries ((guests "ann" "bob").perform {}).2.draft
        ((guests "bob" "ann").perform {}).2.draft ∧
      Document.ofDraft ((guests "ann" "bob").perform {}).2.draft =
        Document.ofDraft ((guests "bob" "ann").perform {}).2.draft := by
  have hdraft : ((guests "ann" "bob").perform {}).2.draft = guestsDraft "ann" "bob" := rfl
  have hdraft' : ((guests "bob" "ann").perform {}).2.draft = guestsDraft "bob" "ann" := rfl
  have hcarries : swapGuests.Carries ((guests "ann" "bob").perform {}).2.draft
      ((guests "bob" "ann").perform {}).2.draft := by
    rw [hdraft, hdraft']
    exact carries_guestsDraft "ann" "bob"
  exact ⟨hcarries, ((built_guests _ _).ofDraft_renumbered (built_guests _ _) hcarries).1⟩

end QueryGrammar
