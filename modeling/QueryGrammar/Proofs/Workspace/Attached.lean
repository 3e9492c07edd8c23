import QueryGrammar.Proofs.Draft.Attached
import QueryGrammar.Proofs.Finish.Refused
import QueryGrammar.Proofs.Semantic.Canonical
import QueryGrammar.Proofs.Workspace.Rooted
/-!
Where the attachments in a workspace come from: a call is given them, or a registration of several
symbols makes them itself, a leaf of a semantic that it has just registered or one of the functions
that join operands. The rest of what a call leaves attached was attached before.
-/
namespace QueryGrammar

open Change Conjunction

namespace Vocabulary

/-- The semantic is a function as those that join operands. -/
def JoinsOperands (v : Vocabulary) (id : SemanticId) : Prop :=
  ∃ name, v.get? id = some (.function name 1 maxOperands)

variable {v w : Vocabulary}

theorem extends_of_isPrefix (h : v.definitions <+: w.definitions) : w.Extends v :=
  fun _ _ hd => getElem?_of_isPrefix h hd

theorem Extends.leaf_eq {s : SemanticId} {forest : Forest} (h : w.Extends v)
    (hleaf : v.leaf s = .ok forest) : w.leaf s = .ok forest := by
  unfold leaf at hleaf ⊢
  obtain ⟨d, hd, hrest⟩ := Outcome.ok_of_bind hleaf
  rw [definition_eq_ok_iff.mpr (h s d (definition_eq_ok_iff.mp hd))]
  exact hrest

theorem eq_of_leaf {s : SemanticId} {forest : Forest} (h : v.leaf s = .ok forest) :
    forest = [.mk s []] := by
  unfold leaf at h
  simp only [Outcome.bind_eq_ok_iff, Outcome.guard_eq_ok_iff] at h
  obtain ⟨_, -, -, h⟩ := h
  cases h
  rfl

theorem Extends.joinsOperands {id : SemanticId} (h : w.Extends v) (hid : v.JoinsOperands id) :
    w.JoinsOperands id := by
  obtain ⟨name, hname⟩ := hid
  exact ⟨name, h _ _ hname⟩

end Vocabulary

/-- What a registration of several symbols attaches by itself. It begins with the connectives `c` and
the draft `d`, and the vocabulary is `v` by now. -/
inductive OwnAttachment (c : Option Connectives) (d : Draft) (v : Vocabulary) : Attachment → Prop where
  | leaf {s : SemanticId} {forest : Forest} (new : d.vocabulary.size ≤ s.index)
      (composed : v.leaf s = .ok forest) : OwnAttachment c d v (.fixed forest)
  | joining {f : SemanticId} (new : d.vocabulary.size ≤ f.index) (joins : v.JoinsOperands f) :
      OwnAttachment c d v (.deferred [f])
  | shared {k : Connectives} {f : SemanticId} (known : c = some k) (mem : f ∈ [k.intersect, k.union]) :
      OwnAttachment c d v (.deferred [f])

theorem OwnAttachment.mono {c : Option Connectives} {d : Draft} {v w : Vocabulary} {a : Attachment}
    (h : OwnAttachment c d v a) (hvw : v.definitions <+: w.definitions) : OwnAttachment c d w a := by
  have hextends := Vocabulary.extends_of_isPrefix hvw
  cases h with
  | leaf new composed => exact .leaf new (hextends.leaf_eq composed)
  | joining new joins => exact .joining new (hextends.joinsOperands joins)
  | shared known mem => exact .shared known mem

/-- Since a registration of several symbols began, nothing has been attached but by itself, and
connectives that were not known have been registered with their functions. -/
structure AttachesOwn (c₀ : Option Connectives) (d₀ : Draft) (c : Option Connectives) (d : Draft) :
    Prop where
  attached : Draft.AttachesFrom (OwnAttachment c₀ d₀ d.vocabulary) d₀ d
  connectives : ∀ k, c = some k → c₀ = some k ∨ ∀ f ∈ [k.intersect, k.union],
    d₀.vocabulary.size ≤ f.index ∧ d.vocabulary.JoinsOperands f

namespace AttachesOwn

variable {c₀ c : Option Connectives} {d₀ d e : Draft}

theorem refl (c : Option Connectives) (d : Draft) : AttachesOwn c d c d :=
  ⟨.refl d, fun _ => Or.inl⟩

theorem size_le (h : AttachesOwn c₀ d₀ c d) : d₀.vocabulary.size ≤ d.vocabulary.size :=
  h.attached.definitions.length_le

theorem step (h : AttachesOwn c₀ d₀ c d)
    (he : Draft.AttachesFrom (OwnAttachment c₀ d₀ d.vocabulary) d e) : AttachesOwn c₀ d₀ c e where
  attached := (h.attached.trans he).mono fun _ ha => ha.mono he.definitions
  connectives k hk := (h.connectives k hk).imp_right fun hnew f hf =>
    ⟨(hnew f hf).1, (Vocabulary.extends_of_isPrefix he.definitions).joinsOperands (hnew f hf).2⟩

theorem compositeStep (c₀ : Option Connectives) (d₀ : Draft) :
    CompositeStep (fun s => d₀.vocabulary.size ≤ s.index) (AttachesOwn c₀ d₀) where
  newSymbol hd h := hd.step (Draft.attachesFrom_newSymbolOf h)
  addWord hd h := hd.step (Draft.attachesFrom_addLexical h (by simp [TermSequence.word]))
  newSemantic hd h := by
    refine ⟨hd.step (Draft.attachesFrom_newSemantic h), ?_⟩
    obtain ⟨-, heq⟩ := Draft.newSemantic_eq h
    cases heq
    exact hd.size_le
  newEntityCategory hd h := hd.step (Draft.attachesFrom_newEntityCategory h)
  addPlainRule hd hp h := hd.step (Draft.attachesFrom_addRule h (by simp [hp]))
  addLeafRule hd hs hleaf hp h := by
    refine hd.step (Draft.attachesFrom_addRule h fun a ha => ?_)
    obtain rfl := Option.some.inj (hp.symm.trans ha)
    exact .leaf hs hleaf
  addJoiningRule {k} _ _ _ _ f hd hf hp h := by
    refine hd.step (Draft.attachesFrom_addRule h fun a ha => ?_)
    obtain rfl := Option.some.inj (hp.symm.trans ha)
    rcases hd.connectives k rfl with hknown | hnew
    · exact .shared hknown hf
    · exact .joining (hnew f hf).1 (hnew f hf).2

end AttachesOwn

namespace Workspace

open Registration

variable {c₀ : Option Connectives} {d₀ : Draft}

/-- A semantic that has been registered is the next one. -/
theorem eq_of_newSemantic {ws t : Workspace} {definition : Semantic} {id : SemanticId}
    (h : (Registration.call (·.newSemantic definition)).perform ws = (.ok id, t)) :
    ws.draft.vocabulary.definitions <+: t.draft.vocabulary.definitions ∧
      t.draft.vocabulary.get? id = some definition ∧ id.index = ws.draft.vocabulary.size := by
  rw [Registration.call, perform_within, perform_call] at h
  cases hnew : ws.draft.newSemantic definition with
  | error err => simp [hnew] at h
  | ok p =>
    obtain ⟨s, e⟩ := p
    obtain ⟨-, heq⟩ := Draft.newSemantic_eq hnew
    cases heq
    simp only [hnew] at h
    cases h
    refine ⟨List.prefix_append _ _, ?_, rfl⟩
    simp [Vocabulary.get?, Vocabulary.size]

theorem attachesOwn_connectivesWith (and : SymbolId) :
    KeepsDraft (AttachesOwn c₀ d₀) (connectivesWith and) := by
  have hstep := AttachesOwn.compositeStep c₀ d₀
  have hsemantic : ∀ definition, KeepsDraft (AttachesOwn c₀ d₀) (call (·.newSemantic definition)) :=
    fun _ => keeps_call fun _ _ _ _ hd h => (hstep.newSemantic hd h).1
  refine Keeps.bind (hstep.keeps_addWord _ _ _ _) fun _ => ?_
  refine Keeps.bind (hstep.keeps_addWord _ _ _ _) fun _ => fun ws hws => ?_
  refine Keeps.bind_at (P := fun ws : Workspace => AttachesOwn c₀ d₀ ws.connectives ws.draft)
    (hsemantic _ ws hws) fun intersect t ht hkept => ?_
  refine Keeps.bind_at (P := fun ws : Workspace => AttachesOwn c₀ d₀ ws.connectives ws.draft)
    (hsemantic _ t hkept) fun union u hu hkept' => ?_
  -- both functions are there when the connectives are put down
  obtain ⟨-, hintersect, hfirst⟩ := eq_of_newSemantic ht
  obtain ⟨hgrown, hunion, hsecond⟩ := eq_of_newSemantic hu
  refine ⟨hkept'.attached, fun k hk => Or.inr ?_⟩
  obtain rfl := Option.some.inj hk
  have hextends := Vocabulary.extends_of_isPrefix hgrown
  refine List.forall_mem_cons.mpr ⟨⟨?_, _, hextends _ _ hintersect⟩,
    List.forall_mem_singleton.mpr ⟨?_, _, hunion⟩⟩
  · exact hfirst ▸ hws.size_le
  · exact hsecond ▸ hkept.size_le

theorem attachesOwn_compositeInvariant (c₀ : Option Connectives) (d₀ : Draft) :
    CompositeInvariant (fun s => d₀.vocabulary.size ≤ s.index) (AttachesOwn c₀ d₀) where
  toCompositeStep := AttachesOwn.compositeStep c₀ d₀
  connect := by
    rw [connectivesOnce_eq]
    refine Keeps.bind Keeps.get fun ws => ?_
    split
    · exact Keeps.pure _
    · refine Keeps.bind Keeps.get fun ws => ?_
      refine Keeps.bind (Keeps.ofOutcome _) fun _ => ?_
      exact Keeps.bind ((AttachesOwn.compositeStep c₀ d₀).keeps_addWord _ _ _ _) fun _ =>
        attachesOwn_connectivesWith _

end Workspace

/-! ### Calls -/

/-- A call, and what it is given to attach. -/
inductive CallWith : {α : Type} → Registration α → Option Attachment → Prop where
  | newSymbol (parts : List String) : CallWith (Registration.newSymbol parts) none
  | addRule (id : SymbolId) (p : Proposal) : CallWith (Registration.addRule id p) p.semantic
  | addBinaryRule (id : SymbolId) (p : Proposal) :
      CallWith (Registration.addBinaryRule id p) p.semantic
  | addWord (name : String) (accepted substituted : List String) (cost : Option Float) :
      CallWith (Registration.addWord name accepted substituted cost) none
  | newTermSequence (t : TermSequence) :
      CallWith (Registration.call (·.newTermSequence t)) (t.semantic.map .fixed)
  | addVerb (v : Verb) : CallWith (Registration.call (·.addVerb v)) none
  | addPronoun (p : Pronoun) :
      CallWith (Registration.call (·.addPronoun p)) (p.semantic.map .fixed)
  | newPhrase (name : String) (parts : List SymbolId) (text : DisplayText)
      (semantic : Option Forest) :
      CallWith (Registration.call (·.newPhrase name parts text semantic)) (semantic.map .fixed)
  | newSemantic (definition : Semantic) :
      CallWith (Registration.call (·.newSemantic definition)) none
  | semantic (definition : Semantic) : CallWith (Registration.semantic definition) none
  | newEntityCategory (name : String) (instances : List String) :
      CallWith (Registration.call (·.newEntityCategory name instances)) none
  | conjunction (operand : SymbolId) : CallWith (Workspace.conjunction operand) none
  | negation (conflicting : Option SymbolId) : CallWith (Workspace.negation conflicting) none
  | category (spec : CategoryWords) : CallWith (Workspace.category spec) none
  | newCategory (spec : CategoryWords) : CallWith (Workspace.newCategory spec) none
  | removeUnused (policy : UnusedPolicy) : CallWith (Registration.call (·.removeUnused policy)) none
  | finish (o : Options) : CallWith (Registration.finish o) none

theorem CallWith.moduleCall {α : Type} {x : Registration α} {g : Option Attachment} :
    CallWith x g → ModuleCall x
  | .newSymbol parts => .register (.newSymbol parts)
  | .addRule id p => .register (.addRule id p)
  | .addBinaryRule id p => .register (.addBinaryRule id p)
  | .addWord name accepted substituted cost => .register (.addWord name accepted substituted cost)
  | .newTermSequence t => .register (.newTermSequence t)
  | .addVerb v => .register (.addVerb v)
  | .addPronoun p => .register (.addPronoun p)
  | .newPhrase name parts text forest => .register (.newPhrase name parts text forest)
  | .newSemantic definition => .register (.newSemantic definition)
  | .semantic definition => .register (.semantic definition)
  | .newEntityCategory name instances => .register (.newEntityCategory name instances)
  | .conjunction operand => .register (.conjunction operand)
  | .negation conflicting => .register (.negation conflicting)
  | .category spec => .register (.category spec)
  | .newCategory spec => .register (.newCategory spec)
  | .removeUnused policy => .removeUnused policy
  | .finish o => .finish o

theorem RegistrationCall.exists_callWith {α : Type} {x : Registration α} :
    RegistrationCall x → ∃ g, CallWith x g
  | .newSymbol parts => ⟨_, .newSymbol parts⟩
  | .addRule id p => ⟨_, .addRule id p⟩
  | .addBinaryRule id p => ⟨_, .addBinaryRule id p⟩
  | .addWord name accepted substituted cost => ⟨_, .addWord name accepted substituted cost⟩
  | .newTermSequence t => ⟨_, .newTermSequence t⟩
  | .addVerb v => ⟨_, .addVerb v⟩
  | .addPronoun p => ⟨_, .addPronoun p⟩
  | .newPhrase name parts text forest => ⟨_, .newPhrase name parts text forest⟩
  | .newSemantic definition => ⟨_, .newSemantic definition⟩
  | .semantic definition => ⟨_, .semantic definition⟩
  | .newEntityCategory name instances => ⟨_, .newEntityCategory name instances⟩
  | .conjunction operand => ⟨_, .conjunction operand⟩
  | .negation conflicting => ⟨_, .negation conflicting⟩
  | .category spec => ⟨_, .category spec⟩
  | .newCategory spec => ⟨_, .newCategory spec⟩

/-- Every call is given something to attach, or nothing. -/
theorem moduleCall_iff {α : Type} {x : Registration α} : ModuleCall x ↔ ∃ g, CallWith x g := by
  refine ⟨fun h => ?_, fun ⟨g, h⟩ => h.moduleCall⟩
  cases h with
  | register call => exact call.exists_callWith
  | removeUnused policy => exact ⟨_, .removeUnused policy⟩
  | finish o => exact ⟨_, .finish o⟩

section Calls

variable {α : Type} {x : Registration α} {g : Option Attachment} {ws : Workspace}

theorem attachesFrom_call {f : Draft → Outcome (α × Draft)} {G : Attachment → Prop}
    (h : ∀ a e, f ws.draft = .ok (a, e) → Draft.AttachesFrom G ws.draft e) :
    Draft.AttachesFrom G ws.draft ((Registration.call f).perform ws).2.draft := by
  rw [Registration.call, perform_within, perform_call]
  cases hf : f ws.draft with
  | error err => exact .refl _
  | ok p => exact h p.1 p.2 hf

theorem attachesFrom_update {f : Draft → Outcome Draft} {G : Attachment → Prop}
    (h : ∀ e, f ws.draft = .ok e → Draft.AttachesFrom G ws.draft e) :
    Draft.AttachesFrom G ws.draft ((Registration.update f).perform ws).2.draft := by
  refine attachesFrom_call fun a e hf => ?_
  obtain ⟨g, hg, heq⟩ := Outcome.ok_of_bind hf
  cases heq
  exact h _ hg

/-- A semantic by name is registered on first use and attached to nothing. -/
theorem attachesFrom_semantic {definition : Semantic} {G : Attachment → Prop} :
    Draft.AttachesFrom G ws.draft ((Registration.semantic definition).perform ws).2.draft := by
  unfold Registration.semantic
  rw [perform_bind, perform_get]
  dsimp only
  split
  · split <;> exact .refl _
  · exact attachesFrom_call fun _ _ => Draft.attachesFrom_newSemantic

theorem attached_of_removeUnused {d : Draft} {policy : UnusedPolicy} {names : List String} {e : Draft}
    (h : d.removeUnused policy = .ok (names, e)) {a : Attachment} (ha : e.Attached a) :
    d.Attached a := by
  obtain ⟨hstart, rfl⟩ := expands_of_removeUnused h
  exact Draft.attached_of_trimmed hstart ha

theorem attached_of_finish {d : Draft} (hd : d.Consistent) {o : Options} {a : Attachment}
    (ha : ((Draft.finish o).perform d).2.Attached a) : d.Attached a := by
  have hfilled : ∀ a, d.filled.Attached a → d.Attached a :=
    fun a ha => ((d.attachesFrom_filled (G := fun _ => False)).attached a ha).resolve_right id
  cases hfinish : (Draft.finish o).perform d with
  | mk outcome e =>
    rw [hfinish] at ha
    cases outcome with
    | error err => exact hfilled a (Draft.eq_filled_of_refused_finish hfinish ▸ ha)
    | ok c =>
      obtain ⟨hstart, unused, hcomplete⟩ := Draft.exists_of_finish hfinish
      have hcompleted := hd.filled.attached_of_complete hstart o unused (a := a)
      rw [hcomplete] at hcompleted
      exact hfilled a (Draft.attached_of_trimmed hstart (hcompleted ha))

/-- What any call leaves attached was attached before, or given to it, or is its own. -/
theorem CallWith.attached_cases (h : CallWith x g) (hws : Built ws) {a : Attachment}
    (ha : (x.perform ws).2.draft.Attached a) : ws.draft.Attached a ∨ g = some a ∨
      OwnAttachment ws.connectives ws.draft (x.perform ws).2.draft.vocabulary a := by
  have hinvariant := Workspace.attachesOwn_compositeInvariant ws.connectives ws.draft
  have hrefl := AttachesOwn.refl ws.connectives ws.draft
  have hown (hkept : AttachesOwn ws.connectives ws.draft (x.perform ws).2.connectives
      (x.perform ws).2.draft) := (hkept.attached.attached a ha).imp_right (Or.inr (a := g = some a))
  have hgiven (hfrom : Draft.AttachesFrom (g = some ·) ws.draft (x.perform ws).2.draft) :=
    (hfrom.attached a ha).imp_right (Or.inl (b := OwnAttachment ws.connectives ws.draft
      (x.perform ws).2.draft.vocabulary a))
  cases h with
  | newSymbol parts => exact hgiven (attachesFrom_call fun _ _ => Draft.attachesFrom_newSymbolOf)
  | addRule id p =>
    exact hgiven (attachesFrom_update fun _ h => Draft.attachesFrom_addRule h fun _ ha => ha)
  | addBinaryRule id p =>
    exact hgiven (attachesFrom_update fun _ h =>
      Draft.attachesFrom_addRule (Registration.addRule_of_addBinaryRule h) fun _ ha => ha)
  | addWord name accepted substituted cost =>
    exact hgiven (attachesFrom_call fun _ _ h =>
      Draft.attachesFrom_addLexical h (by simp [TermSequence.word]))
  | newTermSequence t =>
    exact hgiven (attachesFrom_call fun _ _ h =>
      Draft.attachesFrom_addLexical h fun _ hf => congrArg (Option.map _) hf)
  | addVerb v =>
    exact hgiven (attachesFrom_call fun _ _ h => Draft.attachesFrom_addLexical h (by simp))
  | addPronoun p =>
    exact hgiven (attachesFrom_call fun _ _ h =>
      Draft.attachesFrom_addLexical h fun _ hf => congrArg (Option.map _) hf)
  | newPhrase name parts text semantic =>
    exact hgiven (attachesFrom_call fun _ _ h =>
      Draft.attachesFrom_newPhrase h fun _ hf => congrArg (Option.map _) hf)
  | newSemantic definition =>
    exact hgiven (attachesFrom_call fun _ _ => Draft.attachesFrom_newSemantic)
  | newEntityCategory name instances =>
    exact hgiven (attachesFrom_call fun _ _ => Draft.attachesFrom_newEntityCategory)
  | semantic definition => exact hgiven attachesFrom_semantic
  | conjunction operand => exact hown (Workspace.keeps_conjunction hinvariant operand ws hrefl)
  | negation conflicting =>
    have hdefer : ∀ c d pending, AttachesOwn ws.connectives ws.draft c d →
        AttachesOwn ws.connectives ws.draft c { d with pendingStopWords := pending } :=
      fun _ _ pending hd => hd.step (Draft.attachesFrom_deferStopWords pending)
    exact hown (Workspace.keeps_negation hinvariant.toCompositeStep conflicting
      (Workspace.keeps_negationOf hinvariant.toCompositeStep hdefer conflicting) ws hrefl)
  | category spec => exact hown (Workspace.keeps_category hinvariant spec ws hrefl)
  | newCategory spec => exact hown (Workspace.keeps_newCategory hinvariant spec ws hrefl)
  | finish o => exact Or.inl (attached_of_finish hws.consistent ha)
  | removeUnused policy =>
    left
    rw [Registration.call, perform_within, perform_call] at ha
    cases hremove : ws.draft.removeUnused policy with
    | error err => simpa [hremove] using ha
    | ok p =>
      rw [hremove] at ha
      exact attached_of_removeUnused hremove ha

end Calls

/-- A workspace that calls lead to, each of which is given something that suits the workspace it is
made on. -/
inductive BuiltBy (Suits : (α : Type) → Workspace → Registration α → Option Attachment → Prop) :
    Workspace → Prop where
  | init : BuiltBy Suits {}
  | call {α : Type} {x : Registration α} {g : Option Attachment} {ws : Workspace}
      (before : BuiltBy Suits ws) (call : CallWith x g) (suits : Suits α ws x g) :
      BuiltBy Suits (x.perform ws).2

theorem BuiltBy.built {Suits : (α : Type) → Workspace → Registration α → Option Attachment → Prop}
    {ws : Workspace} (h : BuiltBy Suits ws) : Built ws := by
  induction h with
  | init => exact .init
  | call _ hcall _ ih => exact ih.call hcall.moduleCall

/-- Any calls at all make such a run, where nothing is asked of what they are given. -/
theorem built_iff_builtBy {ws : Workspace} : Built ws ↔ BuiltBy (fun _ _ _ _ => True) ws := by
  refine ⟨fun h => ?_, BuiltBy.built⟩
  induction h with
  | init => exact .init
  | call _ hcall ih =>
    obtain ⟨g, hwith⟩ := moduleCall_iff.mp hcall
    exact ih.call hwith trivial

end QueryGrammar
