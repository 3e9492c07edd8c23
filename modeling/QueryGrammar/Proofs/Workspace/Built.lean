import QueryGrammar.Proofs.Finish.Meaning
import QueryGrammar.Proofs.Finish.WellFormed
/-!
Workspaces that any calls lead to. Besides registering, a content module may remove the unused or
finish the grammar while it registers, any number of times, and go on afterwards. The draft stays
consistent all the same, but a semantic that was pruned on the way may still be attached.
-/
namespace QueryGrammar

open Change

/-- Finishes the draft of a workspace. -/
def Registration.finish (o : Options) : Registration Compilation :=
  (Draft.finish o).within Workspace.draft fun ws d => { ws with draft := d }

/-- The calls that a content module may make. -/
inductive ModuleCall : {α : Type} → Registration α → Prop where
  | register {α : Type} {x : Registration α} (call : RegistrationCall x) : ModuleCall x
  | removeUnused (policy : UnusedPolicy) :
      ModuleCall (Registration.call (·.removeUnused policy))
  | finish (o : Options) : ModuleCall (Registration.finish o)

/-- A workspace that calls lead to, accepted or refused. -/
inductive Built : Workspace → Prop where
  | init : Built {}
  | call {α : Type} {x : Registration α} {ws : Workspace} (before : Built ws)
      (call : ModuleCall x) : Built (x.perform ws).2

/-- All that the module does with a workspace, it does by calls. -/
def ContentModule.Calls (m : ContentModule) : Prop := Keeps Built m.register

theorem ModuleCall.keepsBuilt {α : Type} {x : Registration α} (h : ModuleCall x) :
    Keeps Built x := fun _ hws => .call hws h

theorem Registered.built {ws : Workspace} (h : Registered ws) : Built ws := by
  induction h with
  | init => exact .init
  | call _ hcall ih => exact .call ih (.register hcall)

/-! ### What all calls keep -/

/-- A property of drafts that every step of a call keeps: registration, the removal of the unused
and what finishing does after it. -/
structure CallInvariant (P : Draft → Prop) : Prop extends StepInvariant P where
  trimmed : ∀ {d : Draft}, P d → d.Expands Draft.start → P d.trimmed
  complete : ∀ {d : Draft} (o : Options) (unused : List String),
    P d → d.Expands Draft.start → P (d.trimmed.complete o unused).2

section CallInvariant

variable {P : Draft → Prop} {d e : Draft}

theorem expands_of_removeUnused {policy : UnusedPolicy} {names : List String}
    (h : d.removeUnused policy = .ok (names, e)) : d.Expands Draft.start ∧ e = d.trimmed := by
  rw [Draft.removeUnused_eq] at h
  split at h
  · simp at h
  · next hproductive =>
    split at h
    · simp at h
    · cases h
      exact ⟨Draft.mem_productive_iff.mp (not_not.mp hproductive), rfl⟩

theorem CallInvariant.keeps_finish (hP : CallInvariant P) (o : Options) :
    Keeps P (Draft.finish o) := by
  refine Keeps.bind (StopWords.keeps_fill hP.toStepInvariant) fun _ => ?_
  intro d hd
  rw [perform_bind, perform_call]
  cases hremove : d.removeUnused o.unusedPolicy with
  | error e => exact hd
  | ok result =>
    obtain ⟨hstart, heq⟩ := expands_of_removeUnused hremove
    have hkept := hP.complete o result.1 hd hstart
    rw [← heq] at hkept
    exact hkept

theorem ModuleCall.keeps {Q : Option Connectives → Draft → Prop} (hQ : ∀ c, CallInvariant (Q c))
    (hconnect : Registration.KeepsDraft Q Workspace.connectivesOnce) {α : Type} {x : Registration α}
    (h : ModuleCall x) : Registration.KeepsDraft Q x := by
  cases h with
  | register call => exact call.keeps (.of_stepInvariant (fun c => (hQ c).toStepInvariant) hconnect)
  | removeUnused policy =>
    refine Registration.keeps_call fun c d names e hd h => ?_
    obtain ⟨hstart, rfl⟩ := expands_of_removeUnused h
    exact (hQ c).trimmed hd hstart
  | finish o =>
    intro ws hws
    exact (hQ ws.connectives).keeps_finish o ws.draft hws

/-- What every step keeps and an empty workspace has, every workspace has that calls lead to. -/
theorem Built.induction_connected {Q : Option Connectives → Draft → Prop}
    (hQ : ∀ c, CallInvariant (Q c))
    (hconnect : Registration.KeepsDraft Q Workspace.connectivesOnce) {ws : Workspace} (h : Built ws)
    (hempty : Q none Draft.empty) : Q ws.connectives ws.draft := by
  induction h with
  | init => exact hempty
  | call _ hcall ih => exact hcall.keeps hQ hconnect _ ih

theorem Built.induction (hP : CallInvariant P) {ws : Workspace} (h : Built ws)
    (hempty : P Draft.empty) : P ws.draft :=
  h.induction_connected (fun _ => hP) (Workspace.keeps_connectivesOnce hP.toPlainStepInvariant) hempty

end CallInvariant

theorem consistent_stepInvariant : StepInvariant Draft.Consistent where
  newSymbol hd h := (hd.newSymbolOf h).1
  addRule hd h := hd.addRule h
  addLexical hd h := hd.addLexical h
  newPhrase hd h := hd.newPhrase h
  newSemantic hd h := hd.newSemantic h
  newEntityCategory hd h := hd.newEntityCategory h
  deferStopWords pending hd := hd.deferStopWords pending

namespace Draft

variable {d e : Draft}

theorem Consistent.filled (hd : d.Consistent) : d.filled.Consistent :=
  StopWords.keeps_fill consistent_stepInvariant d hd

/-- A trimmed draft is completed to one that is consistent and of which everything is used. -/
theorem Consistent.complete_trimmed (hd : d.Consistent) (hstart : d.Expands start) (o : Options)
    (unused : List String) : (d.trimmed.complete o unused).2.Consistent ∧
      (d.trimmed.complete o unused).2.Used := by
  have htrimmed := hd.trimmed hstart
  have hused := used_trimmed hstart
  have htok := htrimmed.tokenized
  have hsplit := htrimmed.split htok hused
  exact ⟨hsplit.withEdits o.includeTrees (hused.split htok htrimmed),
    (hused.split htok htrimmed).withEdits o.includeTrees⟩

theorem complete_draft (d : Draft) (o : Options) (unused : List String) :
    (d.complete o unused).2 = (d.tokenize.2.withEdits o.includeTrees).2 := rfl

theorem complete_grammar (d : Draft) (o : Options) (unused : List String) :
    (d.complete o unused).1.grammar = Document.ofDraft (d.complete o unused).2 := rfl

/-- The document that a consistent draft is finished to is well formed exactly when no rule in use
attaches a semantic that has been pruned. -/
theorem Consistent.wellFormed_finish_iff (hd : d.Consistent) {o : Options} {c : Compilation}
    (hfinish : (finish o).perform d = (.ok c, e)) : c.grammar.WellFormed ↔
      ∀ X r, d.filled.Applies X r → ∀ a, r.semantic = some a →
        ∀ id ∈ a.ids, id ∈ d.filled.liveSemantics := by
  obtain ⟨hstart, unused, hcomplete⟩ := exists_of_finish hfinish
  have htrimmed := hd.filled.trimmed hstart
  have hused := used_trimmed hstart
  have htok := htrimmed.tokenized
  have hsplit := hused.split htok htrimmed
  obtain ⟨hconsistent, hall⟩ := hd.filled.complete_trimmed hstart o unused
  rw [hcomplete] at hconsistent hall
  have hdocument := complete_grammar d.filled.trimmed o unused
  have hdraft := complete_draft d.filled.trimmed o unused
  rw [hcomplete] at hdocument hdraft
  dsimp only at hdocument hdraft hconsistent hall
  rw [hdocument, hconsistent.wellFormed_iff hall fun X r hr term text hx => ?_, hdraft,
    attachesLive_withEdits_iff, htok.attachesLive_iff, attachesLive_trimmed_iff hstart]
  · rw [hdraft] at hr
    rcases rule_withEdits_cases o.includeTrees hr with hr | ⟨parent, -, -, hmem⟩
    · exact htok.single hr hx
    · exact absurd (by simp [hx, Expansion.parts]) (parted_of_mem_editsOf hmem)

end Draft

theorem consistent_callInvariant : CallInvariant Draft.Consistent where
  toStepInvariant := consistent_stepInvariant
  trimmed hd hstart := hd.trimmed hstart
  complete o unused hd hstart := (hd.complete_trimmed hstart o unused).1

theorem Built.consistent {ws : Workspace} (h : Built ws) : ws.draft.Consistent :=
  h.induction consistent_callInvariant Draft.consistent_empty

/-- What all modules keep, compiling keeps while they register. -/
theorem keeps_registerAll {P : Workspace → Prop} {modules : List ContentModule}
    (h : ∀ m ∈ modules, Keeps P m.register) {ws : Workspace} (hws : P ws) :
    P (registerAll modules ws).2 := by
  induction modules generalizing ws with
  | nil => exact hws
  | cons m ms ih =>
    have hrest := ih (fun n hn => h n (List.mem_cons_of_mem _ hn)) (h m (by simp) ws hws)
    unfold registerAll
    dsimp only
    split <;> exact hrest

theorem Built.registerAll {modules : List ContentModule} (h : ∀ m ∈ modules, m.Calls)
    {ws : Workspace} (hws : Built ws) : Built (registerAll modules ws).2 :=
  keeps_registerAll h hws

/-- What modules leave behind when all of them have registered. -/
def registeredDraft (modules : List ContentModule) : Draft := (registerAll modules {}).2.draft

theorem exists_of_compile {modules : List ContentModule} {o : Options} {c : Compilation}
    (h : compile modules o = .ok c) :
    ∃ e, (Draft.finish o).perform (registeredDraft modules) = (.ok c, e) := by
  unfold compile at h
  dsimp only at h
  split at h
  · cases hfinish : (Draft.finish o).perform (registeredDraft modules) with
    | mk outcome e =>
      rw [registeredDraft] at hfinish
      rw [hfinish] at h
      cases outcome with
      | error err => simp [Except.mapError] at h
      | ok c' =>
        obtain rfl : c' = c := by simpa [Except.mapError] using h
        exact ⟨e, rfl⟩
  · simp at h

/-- What finishing leaves behind when all modules have registered. -/
def finishedDraft (modules : List ContentModule) (o : Options) : Draft :=
  ((Draft.finish o).perform (registeredDraft modules)).2

theorem grammar_of_compile {modules : List ContentModule} {o : Options} {c : Compilation}
    (h : compile modules o = .ok c) : c.grammar = Document.ofDraft (finishedDraft modules o) := by
  obtain ⟨e, hfinish⟩ := exists_of_compile h
  obtain ⟨-, unused, hcomplete⟩ := Draft.exists_of_finish hfinish
  have hdocument := Draft.complete_grammar (registeredDraft modules).filled.trimmed o unused
  rw [hcomplete] at hdocument
  rw [hdocument, finishedDraft, hfinish]

/-- Compiled modules give a well-formed document exactly when no rule in use attaches a semantic
that was pruned while they registered. -/
theorem wellFormed_compile_iff {modules : List ContentModule} (hmodules : ∀ m ∈ modules, m.Calls)
    {o : Options} {c : Compilation} (h : compile modules o = .ok c) : c.grammar.WellFormed ↔
      ∀ X r, (registeredDraft modules).filled.Applies X r → ∀ a, r.semantic = some a →
        ∀ id ∈ a.ids, id ∈ (registeredDraft modules).filled.liveSemantics := by
  obtain ⟨e, hfinish⟩ := exists_of_compile h
  exact (Built.registerAll hmodules .init).consistent.wellFormed_finish_iff hfinish

/-- A module of two terms, the second with a semantic that was registered before. -/
def twoTerms : ContentModule where
  name := "terms"
  register := do
    let id ← Registration.semantic (.argument "s")
    Registration.addRule Draft.start (.terminal "hi" .verbatim)
    Registration.addRule Draft.start ((Proposal.terminal "yo" .verbatim).fixed [.mk id []])

theorem twoTerms_calls : twoTerms.Calls :=
  .bind (ModuleCall.register (.semantic _)).keepsBuilt fun _ =>
    .bind (ModuleCall.register (.addRule _ _)).keepsBuilt fun _ =>
      (ModuleCall.register (.addRule _ _)).keepsBuilt

/-- A module of the same two terms that removes the unused between them. -/
def prunedTerms : ContentModule where
  name := "terms"
  register := do
    let id ← Registration.semantic (.argument "s")
    Registration.addRule Draft.start (.terminal "hi" .verbatim)
    let _ ← Registration.call (·.removeUnused .warn)
    Registration.addRule Draft.start ((Proposal.terminal "yo" .verbatim).fixed [.mk id []])

theorem prunedTerms_calls : prunedTerms.Calls :=
  .bind (ModuleCall.register (.semantic _)).keepsBuilt fun _ =>
    .bind (ModuleCall.register (.addRule _ _)).keepsBuilt fun _ =>
      .bind (ModuleCall.removeUnused .warn).keepsBuilt fun _ =>
        (ModuleCall.register (.addRule _ _)).keepsBuilt

/-- A term with a semantic makes a well-formed document. -/
theorem wellFormed_compile_twoTerms : ∃ (modules : List ContentModule) (c : Compilation),
    (∀ m ∈ modules, m.Calls) ∧ compile modules {} = .ok c ∧ c.grammar.WellFormed := by
  have hcalls : ∀ m ∈ [twoTerms], m.Calls := by simpa using twoTerms_calls
  have hok : (compile [twoTerms] {}).isOk = true := by decide +kernel
  cases hcompile : compile [twoTerms] {} with
  | error err => simp [hcompile, Except.isOk, Except.toBool] at hok
  | ok c =>
    refine ⟨[twoTerms], c, hcalls, hcompile, (wellFormed_compile_iff hcalls hcompile).mpr ?_⟩
    intro X r hr a ha id hid
    have hconsistent := (Built.registerAll hcalls .init).consistent.filled
    have hnone : (registeredDraft [twoTerms]).filled.prunedSemantics = [] := by decide +kernel
    rw [Draft.mem_liveSemantics_iff, hnone]
    exact ⟨(hconsistent.rules X r hr.expands.1).semantics a ha id hid, by simp⟩

theorem not_wellFormed_compile_prunedTerms : ∃ (modules : List ContentModule) (c : Compilation),
    (∀ m ∈ modules, m.Calls) ∧ compile modules {} = .ok c ∧ ¬ c.grammar.WellFormed := by
  have hcalls : ∀ m ∈ [prunedTerms], m.Calls := by simpa using prunedTerms_calls
  have hok : (compile [prunedTerms] {}).isOk = true := by decide +kernel
  cases hcompile : compile [prunedTerms] {} with
  | error err => simp [hcompile, Except.isOk, Except.toBool] at hok
  | ok c =>
    obtain ⟨e, hfinish⟩ := exists_of_compile hcompile
    refine ⟨[prunedTerms], c, hcalls, hcompile, fun h => ?_⟩
    have hlive := ((Built.registerAll hcalls .init).consistent.wellFormed_finish_iff hfinish).mp h
    have hrule : { expansion := .terminal "yo" .verbatim, semantic := some (.fixed [.mk ⟨0⟩ []]) } ∈
        (registeredDraft [prunedTerms]).filled.rules Draft.start :=
      List.mem_of_getElem? (i := 1) rfl
    have hexpands := (Draft.exists_of_finish hfinish).1
    have happlies := (Productions.occurs_root hexpands).applies hrule
      (by simp [Draft.productions, Draft.productionsBy, Expansion.parts])
    have hpruned : (⟨0⟩ : SemanticId) ∉ (registeredDraft [prunedTerms]).filled.liveSemantics := by
      decide +kernel
    exact hpruned (hlive _ _ happlies _ rfl ⟨0⟩ (by decide))

end QueryGrammar
