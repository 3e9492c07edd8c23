import QueryGrammar.Proofs.Workspace.Attached
/-!
Whether what rules attach is live. A pruned semantic keeps its number, and registration asks no more
of an attachment than that its numbers exist. So what has been pruned comes back in two ways, by being
given to a call and as a function that the shared connectives join operands with; in no other way.
-/
namespace QueryGrammar

open Change

namespace Draft

variable {d e : Draft}

/-- Everything that has been pruned had been registered. -/
def PrunesDefined (d : Draft) : Prop := ∀ id ∈ d.prunedSemantics, id.index < d.vocabulary.size

theorem AttachesFrom.prunesDefined {G : Attachment → Prop} (h : AttachesFrom G d e)
    (hd : d.PrunesDefined) : e.PrunesDefined := fun id hid =>
  Nat.lt_of_lt_of_le (hd id (h.pruned ▸ hid)) h.definitions.length_le

theorem PrunesDefined.trimmed (hd : d.PrunesDefined) (hstart : d.Expands start) :
    d.trimmed.PrunesDefined := by
  intro id hid
  rw [trimmed_prunedSemantics, List.mem_append] at hid
  rw [trimmed_vocabulary]
  rcases hid with hid | hid
  · exact hd id hid
  · exact (mem_liveSemantics_iff.mp ((mem_unused_semantics_iff hstart).mp hid).1).1

/-- Completing a draft leaves its semantics alone. -/
theorem Consistent.complete_semantics (hd : d.Consistent) (hstart : d.Expands start) (o : Options)
    (unused : List String) :
    (d.trimmed.complete o unused).2.vocabulary = d.trimmed.vocabulary ∧
      (d.trimmed.complete o unused).2.prunedSemantics = d.trimmed.prunedSemantics := by
  rw [complete_draft, (addsRules_withEdits d.trimmed.tokenize.2 o.includeTrees).rest,
    (hd.trimmed hstart).tokenized.rest]
  exact ⟨rfl, rfl⟩

theorem Consistent.lt_of_attaches (hd : d.Consistent) {id : SemanticId} (h : d.Attaches id) :
    id.index < d.vocabulary.size := by
  obtain ⟨X, r, hr, a, ha, hid⟩ := h
  exact (hd.rules X r hr).semantics a ha id hid

theorem Consistent.mem_liveSemantics (hd : d.Consistent) {id : SemanticId} (h : d.Attaches id)
    (hpruned : id ∉ d.prunedSemantics) : id ∈ d.liveSemantics :=
  mem_liveSemantics_iff.mpr ⟨hd.lt_of_attaches h, hpruned⟩

end Draft

/-- What no attachment can change, every step of registration keeps. -/
theorem stepInvariant_of_attachesFrom {P : Draft → Prop}
    (hP : ∀ d e, Draft.AttachesFrom (fun _ => True) d e → P d → P e) : StepInvariant P where
  newSymbol hd h := hP _ _ (Draft.attachesFrom_newSymbolOf h) hd
  addRule hd h := hP _ _ (Draft.attachesFrom_addRule h fun _ _ => trivial) hd
  addLexical hd h := hP _ _ (Draft.attachesFrom_addLexical h fun _ _ => trivial) hd
  newPhrase hd h := hP _ _ (Draft.attachesFrom_newPhrase h fun _ _ => trivial) hd
  newSemantic hd h := hP _ _ (Draft.attachesFrom_newSemantic h) hd
  newEntityCategory hd h := hP _ _ (Draft.attachesFrom_newEntityCategory h) hd
  deferStopWords pending hd := hP _ _ (Draft.attachesFrom_deferStopWords pending) hd

theorem prunesDefined_callInvariant : CallInvariant fun d => d.Consistent ∧ d.PrunesDefined where
  toStepInvariant := consistent_stepInvariant.and
    (stepInvariant_of_attachesFrom fun _ _ h => h.prunesDefined)
  trimmed hd hstart := ⟨hd.1.trimmed hstart, hd.2.trimmed hstart⟩
  complete o unused hd hstart := by
    obtain ⟨hvocabulary, hpruned⟩ := hd.1.complete_semantics hstart o unused
    refine ⟨(hd.1.complete_trimmed hstart o unused).1, fun id hid => ?_⟩
    rw [hvocabulary]
    exact hd.2.trimmed hstart id (hpruned ▸ hid)

theorem Built.prunesDefined {ws : Workspace} (h : Built ws) : ws.draft.PrunesDefined :=
  (h.induction prunesDefined_callInvariant ⟨Draft.consistent_empty, by simp [Draft.PrunesDefined,
    Draft.empty]⟩).2

/-! ### Single calls -/

section Calls

variable {α : Type} {x : Registration α} {g : Option Attachment} {ws : Workspace} {id : SemanticId}

theorem RegistrationCall.prunedSemantics_eq (h : RegistrationCall x) (ws : Workspace) :
    (x.perform ws).2.draft.prunedSemantics = ws.draft.prunedSemantics := by
  have hkeeps : StepInvariant fun d => d.prunedSemantics = ws.draft.prunedSemantics :=
    stepInvariant_of_attachesFrom fun _ _ h hd => h.pruned.trans hd
  exact h.keeps hkeeps.registration ws rfl

namespace Draft

variable {d e : Draft}

theorem not_mem_pruned_of_trimmed (hstart : d.Expands start) (hpruned : id ∉ d.prunedSemantics)
    (h : d.trimmed.Attaches id) : id ∉ d.trimmed.prunedSemantics := by
  rw [trimmed_prunedSemantics, List.mem_append, not_or, mem_unused_semantics_iff hstart]
  exact ⟨hpruned, fun hunused => hunused.2 h⟩

theorem Consistent.not_mem_pruned_of_finish (hd : d.Consistent) {o : Options}
    (hpruned : id ∉ d.prunedSemantics) (h : ((finish o).perform d).2.Attaches id) :
    id ∉ ((finish o).perform d).2.prunedSemantics := by
  have hfilled : id ∉ d.filled.prunedSemantics := by
    rwa [(d.attachesFrom_filled (G := fun _ => False)).pruned]
  cases hfinish : (finish o).perform d with
  | mk outcome e =>
    rw [hfinish] at h
    cases outcome with
    | error err => exact eq_filled_of_refused_finish hfinish ▸ hfilled
    | ok c =>
      obtain ⟨hstart, unused, hcomplete⟩ := exists_of_finish hfinish
      obtain ⟨-, hsame⟩ := hd.filled.complete_semantics hstart o unused
      rw [hcomplete] at hsame
      refine hsame ▸ not_mem_pruned_of_trimmed hstart hfilled ?_
      rw [attaches_iff_attached] at h ⊢
      obtain ⟨a, ha, hid⟩ := h
      refine ⟨a, hd.filled.attached_of_complete hstart o unused ?_, hid⟩
      rwa [hcomplete]

end Draft

/-- A call prunes nothing that it leaves attached. -/
theorem ModuleCall.not_mem_pruned (h : ModuleCall x) (hws : Built ws)
    (hpruned : id ∉ ws.draft.prunedSemantics) (hid : (x.perform ws).2.draft.Attaches id) :
    id ∉ (x.perform ws).2.draft.prunedSemantics := by
  cases h with
  | register call => rwa [call.prunedSemantics_eq]
  | finish o => exact hws.consistent.not_mem_pruned_of_finish hpruned hid
  | removeUnused policy =>
    rw [Registration.call, perform_within, perform_call] at hid ⊢
    cases hremove : ws.draft.removeUnused policy with
    | error err => exact hpruned
    | ok p =>
      rw [hremove] at hid
      obtain ⟨hstart, heq⟩ := expands_of_removeUnused hremove
      dsimp only at hid ⊢
      rw [heq] at hid ⊢
      exact Draft.not_mem_pruned_of_trimmed hstart hpruned hid

/-- What has been pruned stays so. -/
theorem pruned_callInvariant (id : SemanticId) :
    CallInvariant fun d => d.Consistent ∧ id ∈ d.prunedSemantics where
  toStepInvariant := consistent_stepInvariant.and
    (stepInvariant_of_attachesFrom fun _ _ h hid => h.pruned.symm ▸ hid)
  trimmed {d} hd hstart := by
    refine ⟨hd.1.trimmed hstart, ?_⟩
    rw [Draft.trimmed_prunedSemantics]
    exact List.mem_append_left _ hd.2
  complete {d} o unused hd hstart := by
    refine ⟨(hd.1.complete_trimmed hstart o unused).1, ?_⟩
    rw [(hd.1.complete_semantics hstart o unused).2, Draft.trimmed_prunedSemantics]
    exact List.mem_append_left _ hd.2

theorem ModuleCall.mem_pruned (h : ModuleCall x) (hws : Built ws)
    (hid : id ∈ ws.draft.prunedSemantics) : id ∈ (x.perform ws).2.draft.prunedSemantics := by
  have hpruned := pruned_callInvariant id
  exact (h.keeps (fun _ => hpruned) (Workspace.keeps_connectivesOnce hpruned.toPlainStepInvariant) ws
    ⟨hws.consistent, hid⟩).2

/-- The connectives of the workspace join operands with this. -/
def Workspace.JoinsWith (ws : Workspace) (a : Attachment) : Prop :=
  ∃ k, ws.connectives = some k ∧ ∃ f ∈ [k.intersect, k.union], a = .deferred [f]

/-- What the call is given, and what the shared connectives join operands with, has not been pruned as
far as the call attaches it. -/
def Spares {α : Type} (ws : Workspace) (x : Registration α) (g : Option Attachment) : Prop :=
  ∀ a, g = some a ∨ ws.JoinsWith a → (x.perform ws).2.draft.Attached a →
    ∀ id ∈ a.ids, id ∉ ws.draft.prunedSemantics

/-- A call keeps live what rules attach exactly if it is not given, and does not share, what has been
pruned. -/
theorem CallWith.attachesLive_iff (h : CallWith x g) (hws : Built ws)
    (hlive : ws.draft.AttachesLive) : (x.perform ws).2.draft.AttachesLive ↔ Spares ws x g := by
  constructor
  · intro hafter a _ ha id hid hpruned
    have hmem := hafter id (Draft.attaches_iff_attached.mpr ⟨a, ha, hid⟩)
    exact (Draft.mem_liveSemantics_iff.mp hmem).2 (h.moduleCall.mem_pruned hws hpruned)
  · intro hspares id hid
    refine (hws.call h.moduleCall).consistent.mem_liveSemantics hid
      (h.moduleCall.not_mem_pruned hws ?_ hid)
    obtain ⟨a, ha, hmem⟩ := Draft.attaches_iff_attached.mp hid
    rcases h.attached_cases hws ha with hbefore | hgiven | hown
    · have hattaches := Draft.attaches_iff_attached.mpr ⟨a, hbefore, hmem⟩
      exact (Draft.mem_liveSemantics_iff.mp (hlive id hattaches)).2
    · exact hspares a (.inl hgiven) ha id hmem
    · -- a semantic that the call has registered itself is not among those that were pruned before
      have hnew : ∀ s : SemanticId, ws.draft.vocabulary.size ≤ s.index →
          s ∉ ws.draft.prunedSemantics :=
        fun s hs hpruned => absurd (hws.prunesDefined s hpruned) (Nat.not_lt.mpr hs)
      cases hown with
      | leaf new composed =>
        obtain rfl := Vocabulary.eq_of_leaf composed
        obtain rfl := List.mem_singleton.mp hmem
        exact hnew _ new
      | joining new joins =>
        obtain rfl := List.mem_singleton.mp hmem
        exact hnew _ new
      | @shared k f known mem =>
        exact hspares _ (.inr ⟨k, known, f, mem, rfl⟩) ha id hmem

end Calls

/-! ### Runs and documents -/

namespace Draft

/-- Every document of a draft that attaches only live semantics defines what its rows mention, also
before anything has been removed. -/
theorem Consistent.closed_iff {d : Draft} (hd : d.Consistent) :
    (∀ name row, (Document.ofDraft d).HasRow name row → (Document.ofDraft d).ClosedRow row) ↔
      d.AttachesLive := by
  refine ⟨hd.attachesLive, fun hlive name row hrow => ?_⟩
  obtain ⟨X, -, r, hr, rfl⟩ := exists_rule_of_hasRow hd.names hrow
  exact hd.closedRow hlive hr

/-- Stop words attach nothing, so what is finished is well formed. -/
theorem Consistent.wellFormed_finish {d e : Draft} (hd : d.Consistent) (hlive : d.AttachesLive)
    {o : Options} {c : Compilation} (hfinish : (finish o).perform d = (.ok c, e)) :
    c.grammar.WellFormed := by
  refine (hd.wellFormed_finish_iff hfinish).mpr fun X r hr a ha id hid => ?_
  have hfrom := d.attachesFrom_filled (G := fun _ => False)
  have hattached := (hfrom.attached a ⟨X, r, hr.expands.1, ha⟩).resolve_right not_false
  have hmem := hlive id (attaches_iff_attached.mpr ⟨a, hattached, hid⟩)
  refine hd.filled.mem_liveSemantics ⟨X, r, hr.expands.1, a, ha, hid⟩ ?_
  rw [hfrom.pruned]
  exact (mem_liveSemantics_iff.mp hmem).2

end Draft

theorem Registered.attachesLive {ws : Workspace} (h : Registered ws) : ws.draft.AttachesLive :=
  fun _ hid => h.built.consistent.mem_liveSemantics hid (by simp [h.sound.semantics])

theorem BuiltBy.attachesLive {ws : Workspace} (h : BuiltBy (fun _ ws x g => Spares ws x g) ws) :
    ws.draft.AttachesLive := by
  induction h with
  | init => exact Registered.init.attachesLive
  | call before hcall suits ih => exact (hcall.attachesLive_iff before.built ih).mpr suits

/-- Rules attach live semantics while nothing is removed or finished, and afterwards as long as no
call brings back what has been pruned; the first that does, which nothing refuses, ends it. Documents
define the semantics that their rows name just as long. -/
theorem Built.attachesLive_exactly {ws : Workspace} (hws : Built ws) :
    (Registered ws → ws.draft.AttachesLive) ∧
    (BuiltBy (fun _ ws x g => Spares ws x g) ws → ws.draft.AttachesLive) ∧
    (∀ (α : Type) (x : Registration α) (g : Option Attachment), CallWith x g →
      ws.draft.AttachesLive → ((x.perform ws).2.draft.AttachesLive ↔ Spares ws x g)) ∧
    ((∀ name row, (Document.ofDraft ws.draft).HasRow name row →
      (Document.ofDraft ws.draft).ClosedRow row) ↔ ws.draft.AttachesLive) ∧
    (ws.draft.AttachesLive → ∀ (o : Options) (c : Compilation) (e : Draft),
      (Draft.finish o).perform ws.draft = (.ok c, e) → c.grammar.WellFormed) := by
  refine ⟨fun h => h.attachesLive, fun hrun => hrun.attachesLive,
    fun α x g h => h.attachesLive_iff hws, hws.consistent.closed_iff, ?_⟩
  intro hlive o c e hfinish
  exact hws.consistent.wellFormed_finish hlive hfinish

/-- A semantic is registered, everything unused is removed, and a second term attaches that semantic.
Whether it was in use before depends on the first term. -/
def reattached (first : Option Attachment) : Workspace :=
  let named := ((Registration.call (·.newSemantic (.argument "s"))).perform {}).2
  let greeted := ((Registration.addRule Draft.start
    { Proposal.terminal "hi" .verbatim with semantic := first }).perform named).2
  let trimmed := ((Registration.call (·.removeUnused .warn)).perform greeted).2
  ((Registration.addRule Draft.start ((Proposal.terminal "yo" .verbatim).fixed [.mk ⟨0⟩ []])).perform
    trimmed).2

theorem attachesLive_reattached : (reattached (some (.fixed [.mk ⟨0⟩ []]))).draft.AttachesLive := by
  have hspares : ∀ (α : Type) (x : Registration α) (g : Option Attachment) (ws : Workspace),
      ws.draft.prunedSemantics = [] → Spares ws x g := by
    intro α x g ws hnone a _ _ id _
    simp [hnone]
  have hnamed : BuiltBy (fun _ ws x g => Spares ws x g) _ :=
    BuiltBy.init.call (.newSemantic (.argument "s")) (hspares _ _ _ _ rfl)
  have hgreeted := hnamed.call (.addRule Draft.start
    { Proposal.terminal "hi" .verbatim with semantic := some (.fixed [.mk ⟨0⟩ []]) })
    (hspares _ _ _ _ rfl)
  have htrimmed := hgreeted.call (.removeUnused .warn) (hspares _ _ _ _ rfl)
  have hrun := htrimmed.call
    (.addRule Draft.start ((Proposal.terminal "yo" .verbatim).fixed [.mk ⟨0⟩ []]))
    (hspares _ _ _ _ (by decide +kernel))
  exact hrun.built.attachesLive_exactly.2.1 hrun

theorem exists_not_attachesLive : ∃ ws, Built ws ∧ ¬ ws.draft.AttachesLive := by
  refine ⟨reattached none, ?_, fun h => ?_⟩
  · have hgreeted := (Built.init.call (.register (.newSemantic (.argument "s")))).call
      (.register (.addRule Draft.start { Proposal.terminal "hi" .verbatim with semantic := none }))
    exact (hgreeted.call (.removeUnused .warn)).call (.register (.addRule _ _))
  · have hmem := h ⟨0⟩ ⟨Draft.start, _, List.mem_of_getElem? (i := 1) rfl, _, rfl, by decide⟩
    exact absurd hmem (by decide +kernel)

end QueryGrammar
