import Mathlib
import QueryGrammar.Compile
import QueryGrammar.Proofs.Draft.Sound
/-!
Workspaces that registration reaches. A call that is refused may leave part of its work behind, so
every state it can leave is reached, and the draft is sound in all of them.
-/
namespace QueryGrammar

/-- The calls by which content is registered. -/
inductive RegistrationCall : {α : Type} → Registration α → Prop where
  | newSymbol (parts : List String) : RegistrationCall (Registration.newSymbol parts)
  | addRule (id : SymbolId) (p : Proposal) : RegistrationCall (Registration.addRule id p)
  | addBinaryRule (id : SymbolId) (p : Proposal) :
      RegistrationCall (Registration.addBinaryRule id p)
  | addWord (name : String) (accepted substituted : List String) (cost : Option Float) :
      RegistrationCall (Registration.addWord name accepted substituted cost)
  | newTermSequence (t : TermSequence) :
      RegistrationCall (Registration.call (·.newTermSequence t))
  | addVerb (v : Verb) : RegistrationCall (Registration.call (·.addVerb v))
  | addPronoun (p : Pronoun) : RegistrationCall (Registration.call (·.addPronoun p))
  | newPhrase (name : String) (parts : List SymbolId) (text : DisplayText)
      (semantic : Option Forest) :
      RegistrationCall (Registration.call (·.newPhrase name parts text semantic))
  | newSemantic (definition : Semantic) :
      RegistrationCall (Registration.call (·.newSemantic definition))
  | semantic (definition : Semantic) : RegistrationCall (Registration.semantic definition)
  | newEntityCategory (name : String) (instances : List String) :
      RegistrationCall (Registration.call (·.newEntityCategory name instances))
  | conjunction (operand : SymbolId) : RegistrationCall (Workspace.conjunction operand)
  | negation (conflicting : Option SymbolId) : RegistrationCall (Workspace.negation conflicting)
  | category (spec : CategoryWords) : RegistrationCall (Workspace.category spec)
  | newCategory (spec : CategoryWords) : RegistrationCall (Workspace.newCategory spec)

/-- A workspace that registration calls lead to, accepted or refused. -/
inductive Registered : Workspace → Prop where
  | init : Registered {}
  | call {α : Type} {x : Registration α} {ws : Workspace} (before : Registered ws)
      (call : RegistrationCall x) : Registered (x.perform ws).2

/-- A property of drafts that every single step of registration keeps, but for the deferral of stop
words. -/
structure PlainStepInvariant (P : Draft → Prop) : Prop where
  newSymbol : ∀ {d e : Draft} {isTermSequence : Bool} {parts : List String} {id : SymbolId},
    P d → d.newSymbolOf isTermSequence parts = .ok (id, e) → P e
  addRule : ∀ {d e : Draft} {id : SymbolId} {p : Proposal}, P d → d.addRule id p = .ok e → P e
  addLexical : ∀ {d e : Draft} {name : String} {entries : List LexicalEntry}
    {semantic : Option Forest} {id : SymbolId},
    P d → d.addLexical name entries semantic = .ok (id, e) → P e
  newPhrase : ∀ {d e : Draft} {name : String} {parts : List SymbolId} {text : DisplayText}
    {semantic : Option Forest} {id : SymbolId},
    P d → d.newPhrase name parts text semantic = .ok (id, e) → P e
  newSemantic : ∀ {d e : Draft} {definition : Semantic} {id : SemanticId},
    P d → d.newSemantic definition = .ok (id, e) → P e
  newEntityCategory : ∀ {d e : Draft} {name : String} {instances : List String}
    {id : EntityCategoryId}, P d → d.newEntityCategory name instances = .ok (id, e) → P e

/-- A property of drafts that every single step of registration keeps. -/
structure StepInvariant (P : Draft → Prop) : Prop extends PlainStepInvariant P where
  deferStopWords : ∀ {d : Draft} (pending : List (SymbolId × Option SymbolId)),
    P d → P { d with pendingStopWords := pending }

theorem StepInvariant.and {P Q : Draft → Prop} (hP : StepInvariant P) (hQ : StepInvariant Q) :
    StepInvariant fun d => P d ∧ Q d where
  newSymbol hd h := ⟨hP.newSymbol hd.1 h, hQ.newSymbol hd.2 h⟩
  addRule hd h := ⟨hP.addRule hd.1 h, hQ.addRule hd.2 h⟩
  addLexical hd h := ⟨hP.addLexical hd.1 h, hQ.addLexical hd.2 h⟩
  newPhrase hd h := ⟨hP.newPhrase hd.1 h, hQ.newPhrase hd.2 h⟩
  newSemantic hd h := ⟨hP.newSemantic hd.1 h, hQ.newSemantic hd.2 h⟩
  newEntityCategory hd h := ⟨hP.newEntityCategory hd.1 h, hQ.newEntityCategory hd.2 h⟩
  deferStopWords pending hd := ⟨hP.deferStopWords pending hd.1, hQ.deferStopWords pending hd.2⟩

open Change

namespace Registration

variable {Q : Option Connectives → Draft → Prop}

/-- The change leaves a property of the connectives and the draft in place. -/
def KeepsDraft {α : Type} (Q : Option Connectives → Draft → Prop) (x : Registration α) : Prop :=
  Keeps (fun ws => Q ws.connectives ws.draft) x

theorem keeps_call {α : Type} {f : Draft → Outcome (α × Draft)}
    (h : ∀ c d a e, Q c d → f d = .ok (a, e) → Q c e) : KeepsDraft Q (call f) := by
  intro ws hws
  exact Keeps.call (h ws.connectives) ws.draft hws

theorem keeps_update {f : Draft → Outcome Draft} (h : ∀ c d e, Q c d → f d = .ok e → Q c e) :
    KeepsDraft Q (update f) := by
  refine keeps_call fun c d a e hd hf => ?_
  obtain ⟨x, hx, heq⟩ := Outcome.ok_of_bind hf
  cases heq
  exact h c d _ hd hx

theorem keeps_ask {α : Type} (f : Draft → Outcome α) : KeepsDraft Q (ask f) :=
  Keeps.bind Keeps.get fun _ => Keeps.ofOutcome _

/-- What is asked may be relied on where it was asked. -/
theorem keeps_ask_bind {α β : Type} {f : Draft → Outcome α} {g : α → Registration β}
    (h : ∀ a ws, f ws.draft = .ok a → Q ws.connectives ws.draft →
      Q ((g a).perform ws).2.connectives ((g a).perform ws).2.draft) :
    KeepsDraft Q (ask f >>= g) := by
  refine fun ws hws => Keeps.bind_at (P := fun ws : Workspace => Q ws.connectives ws.draft)
    (keeps_ask f ws hws) fun a t ha ht => ?_
  obtain ⟨hok, rfl⟩ := Prod.mk.inj ha
  exact h a ws hok ht

/-- What a call answers may have a property of its own. -/
theorem keeps_call_bind {α β : Type} {R : α → Prop} {f : Draft → Outcome (α × Draft)}
    {g : α → Registration β} (h : ∀ c d a e, Q c d → f d = .ok (a, e) → Q c e ∧ R a)
    (hg : ∀ a, R a → KeepsDraft Q (g a)) : KeepsDraft Q (call f >>= g) := by
  have hcall : KeepsDraft Q (call f) := keeps_call fun c d a e hd hf => (h c d a e hd hf).1
  refine fun ws hws => Keeps.bind_at (P := fun ws : Workspace => Q ws.connectives ws.draft)
    (hcall ws hws) fun a t ha ht => hg a ?_ t ht
  have hf := congrArg Prod.fst ha
  rw [call, perform_within, perform_call] at hf
  cases hd : f ws.draft with
  | error err => simp [hd] at hf
  | ok p =>
    obtain rfl : p.1 = a := by simpa [hd] using hf
    exact (h _ _ _ _ hws hd).2

theorem keeps_modify {f : Workspace → Workspace} (hdraft : ∀ ws, (f ws).draft = ws.draft)
    (hconnectives : ∀ ws, (f ws).connectives = ws.connectives) : KeepsDraft Q (modify f) :=
  Keeps.modify fun ws hws => by rwa [hdraft, hconnectives]

theorem addRule_of_addBinaryRule {d e : Draft} {id : SymbolId} {p : Proposal}
    (h : d.addBinaryRule id p = .ok e) : d.addRule id p = .ok e := by
  unfold Draft.addBinaryRule at h
  dsimp only at h
  split_ifs at h
  exact h

variable (hQ : ∀ c, PlainStepInvariant (Q c))
include hQ

theorem keeps_newSymbol (parts : List String) : KeepsDraft Q (newSymbol parts) :=
  keeps_call fun c _ _ _ hd h => (hQ c).newSymbol hd h

theorem keeps_addRule (id : SymbolId) (p : Proposal) : KeepsDraft Q (addRule id p) :=
  keeps_update fun c _ _ hd h => (hQ c).addRule hd h

theorem keeps_addBinaryRule (id : SymbolId) (p : Proposal) : KeepsDraft Q (addBinaryRule id p) :=
  keeps_update fun c _ _ hd h => (hQ c).addRule hd (addRule_of_addBinaryRule h)

theorem keeps_addWord (name : String) (accepted substituted : List String)
    (cost : Option Float) : KeepsDraft Q (addWord name accepted substituted cost) :=
  keeps_call fun c _ _ _ hd h => (hQ c).addLexical hd h

theorem keeps_newSemantic (definition : Semantic) :
    KeepsDraft Q (call (·.newSemantic definition)) :=
  keeps_call fun c _ _ _ hd h => (hQ c).newSemantic hd h

theorem keeps_semantic (definition : Semantic) : KeepsDraft Q (semantic definition) := by
  refine Keeps.bind Keeps.get fun ws => ?_
  dsimp only
  split
  · split
    · exact Keeps.pure _
    · exact Keeps.throw _
  · exact keeps_newSemantic hQ definition

end Registration

/-- A property of the connectives and the draft that every step of a registration of several symbols
keeps. Their rules attach nothing, a leaf of a semantic that the registration has made its own, or one
of the functions of the connectives. -/
structure CompositeStep (Own : SemanticId → Prop) (Q : Option Connectives → Draft → Prop) : Prop where
  newSymbol : ∀ {c : Option Connectives} {d e : Draft} {isTermSequence : Bool} {parts : List String}
    {id : SymbolId}, Q c d → d.newSymbolOf isTermSequence parts = .ok (id, e) → Q c e
  addWord : ∀ {c : Option Connectives} {d e : Draft} {name : String}
    {accepted substituted : List String} {cost : Option Float} {id : SymbolId},
    Q c d → d.addWord name accepted substituted cost = .ok (id, e) → Q c e
  newSemantic : ∀ {c : Option Connectives} {d e : Draft} {definition : Semantic} {id : SemanticId},
    Q c d → d.newSemantic definition = .ok (id, e) → Q c e ∧ Own id
  newEntityCategory : ∀ {c : Option Connectives} {d e : Draft} {name : String}
    {instances : List String} {id : EntityCategoryId},
    Q c d → d.newEntityCategory name instances = .ok (id, e) → Q c e
  addPlainRule : ∀ {c : Option Connectives} {d e : Draft} {id : SymbolId} {p : Proposal},
    Q c d → p.semantic = none → d.addRule id p = .ok e → Q c e
  addLeafRule : ∀ {c : Option Connectives} {d e : Draft} {id : SymbolId} {p : Proposal}
    {s : SemanticId} {forest : Forest}, Q c d → Own s → d.vocabulary.leaf s = .ok forest →
      p.semantic = some (.fixed forest) → d.addRule id p = .ok e → Q c e
  addJoiningRule : ∀ {k : Connectives} {d e : Draft} {id : SymbolId} {p : Proposal} {f : SemanticId},
    Q (some k) d → f ∈ [k.intersect, k.union] → p.semantic = some (.deferred [f]) →
      d.addRule id p = .ok e → Q (some k) e

/-- With this property, rules may apply the functions of these connectives. -/
def Joins (Q : Option Connectives → Draft → Prop) (k : Connectives) : Prop :=
  ∀ ⦃c : Option Connectives⦄ ⦃d e : Draft⦄ ⦃id : SymbolId⦄ ⦃p : Proposal⦄ ⦃f : SemanticId⦄,
    Q c d → f ∈ [k.intersect, k.union] → p.semantic = some (.deferred [f]) →
      d.addRule id p = .ok e → Q c e

/-- A property that the registrations of several symbols keep. -/
structure CompositeInvariant (Own : SemanticId → Prop) (Q : Option Connectives → Draft → Prop) :
    Prop extends CompositeStep Own Q where
  connect : Registration.KeepsDraft Q Workspace.connectivesOnce

theorem CompositeStep.at {Own : SemanticId → Prop} {Q : Option Connectives → Draft → Prop}
    (hQ : CompositeStep Own Q) (k : Connectives) :
    CompositeStep Own fun c d => Q c d ∧ c = some k where
  newSymbol hd h := ⟨hQ.newSymbol hd.1 h, hd.2⟩
  addWord hd h := ⟨hQ.addWord hd.1 h, hd.2⟩
  newSemantic hd h := ⟨⟨(hQ.newSemantic hd.1 h).1, hd.2⟩, (hQ.newSemantic hd.1 h).2⟩
  newEntityCategory hd h := ⟨hQ.newEntityCategory hd.1 h, hd.2⟩
  addPlainRule hd hp h := ⟨hQ.addPlainRule hd.1 hp h, hd.2⟩
  addLeafRule hd hs hleaf hp h := ⟨hQ.addLeafRule hd.1 hs hleaf hp h, hd.2⟩
  addJoiningRule hd hf hp h := ⟨hQ.addJoiningRule hd.1 hf hp h, hd.2⟩

theorem CompositeStep.joins {Own : SemanticId → Prop} {Q : Option Connectives → Draft → Prop}
    (hQ : CompositeStep Own Q) (k : Connectives) : Joins (fun c d => Q c d ∧ c = some k) k := by
  rintro _ d e id p f ⟨hd, rfl⟩ hf hp h
  exact ⟨hQ.addJoiningRule hd hf hp h, rfl⟩

section OfStepInvariant

variable {Q : Option Connectives → Draft → Prop} (hQ : ∀ c, PlainStepInvariant (Q c))
include hQ

theorem CompositeStep.of_plainStepInvariant : CompositeStep (fun _ => True) Q where
  newSymbol hd h := (hQ _).newSymbol hd h
  addWord hd h := (hQ _).addLexical hd h
  newSemantic hd h := ⟨(hQ _).newSemantic hd h, trivial⟩
  newEntityCategory hd h := (hQ _).newEntityCategory hd h
  addPlainRule hd _ h := (hQ _).addRule hd h
  addLeafRule hd _ _ _ h := (hQ _).addRule hd h
  addJoiningRule hd _ _ h := (hQ _).addRule hd h

theorem joins_of_plainStepInvariant (k : Connectives) : Joins Q k :=
  fun _ _ _ _ _ _ hd _ _ h => (hQ _).addRule hd h

end OfStepInvariant

namespace CompositeStep

open Registration

variable {Own : SemanticId → Prop} {Q : Option Connectives → Draft → Prop} (hQ : CompositeStep Own Q)
include hQ

theorem keeps_newSymbol (parts : List String) : KeepsDraft Q (Registration.newSymbol parts) :=
  keeps_call fun _ _ _ _ hd h => hQ.newSymbol hd h

theorem keeps_addWord (name : String) (accepted substituted : List String)
    (cost : Option Float) : KeepsDraft Q (Registration.addWord name accepted substituted cost) :=
  keeps_call fun _ _ _ _ hd h => hQ.addWord hd h

theorem keeps_addRule {p : Proposal} (hp : p.semantic = none) (id : SymbolId) :
    KeepsDraft Q (addRule id p) :=
  keeps_update fun _ _ _ hd h => hQ.addPlainRule hd hp h

theorem keeps_addBinaryRule {p : Proposal} (hp : p.semantic = none) (id : SymbolId) :
    KeepsDraft Q (addBinaryRule id p) :=
  keeps_update fun _ _ _ hd h => hQ.addPlainRule hd hp (addRule_of_addBinaryRule h)

theorem addLeafRule_at {ws : Workspace} (hws : Q ws.connectives ws.draft) {s : SemanticId}
    (hs : Own s) {forest : Forest} (hleaf : ws.draft.vocabulary.leaf s = .ok forest) {p : Proposal}
    (hp : p.semantic = some (.fixed forest)) {id : SymbolId} :
    Q ((addRule id p).perform ws).2.connectives ((addRule id p).perform ws).2.draft := by
  simp only [addRule, update, Registration.call, perform_within, perform_call]
  cases h : ws.draft.addRule id p with
  | error err => exact hws
  | ok e => exact hQ.addLeafRule hws hs hleaf hp h

omit hQ in
theorem keeps_addJoiningRule {k : Connectives} (hk : Joins Q k) {f : SemanticId}
    (hf : f ∈ [k.intersect, k.union]) {p : Proposal} (hp : p.semantic = some (.deferred [f]))
    (id : SymbolId) : KeepsDraft Q (addBinaryRule id p) :=
  keeps_update fun _ _ _ hd h => hk hd hf hp (addRule_of_addBinaryRule h)

end CompositeStep

namespace Workspace

open Registration

/-- The connectives besides "and", which comes first. -/
def connectivesWith (and : SymbolId) : Registration Connectives := do
  let or ← addWord "or" ["or"] [] none
  let comma ← addWord "comma" [","] [] none
  let intersect ← call (·.newSemantic (.function Conjunction.intersectName 1 Conjunction.maxOperands))
  let union ← call (·.newSemantic (.function Conjunction.unionName 1 Conjunction.maxOperands))
  let c : Connectives :=
    { and := and, or := or, comma := comma, intersect := intersect, union := union }
  modify fun ws => { ws with connectives := some c }
  return c

theorem connectivesOnce_eq : connectivesOnce = (do
    if let some c := (← get).connectives then return c
    Change.ofOutcome (Conjunction.checkConnectiveNames (← get))
    let and ← addWord "and" ["and"] ["&"] (some Conjunction.andInsertionCost)
    connectivesWith and) := rfl

theorem keeps_connectivesWith {P : Draft → Prop} (hP : PlainStepInvariant P) (and : SymbolId) :
    KeepsDraft (fun _ => P) (connectivesWith and) := by
  refine Keeps.bind (keeps_addWord (fun _ => hP) _ _ _ _) fun _ => ?_
  refine Keeps.bind (keeps_addWord (fun _ => hP) _ _ _ _) fun _ => ?_
  refine Keeps.bind (keeps_newSemantic (fun _ => hP) _) fun _ => ?_
  refine Keeps.bind (keeps_newSemantic (fun _ => hP) _) fun _ => ?_
  exact Keeps.bind (Keeps.modify fun _ hd => hd) fun _ => Keeps.pure _

theorem keeps_connectivesOnce {P : Draft → Prop} (hP : PlainStepInvariant P) :
    KeepsDraft (fun _ => P) connectivesOnce := by
  rw [connectivesOnce_eq]
  refine Keeps.bind Keeps.get fun ws => ?_
  split
  · exact Keeps.pure _
  · refine Keeps.bind Keeps.get fun ws => ?_
    refine Keeps.bind (Keeps.ofOutcome _) fun _ => ?_
    exact Keeps.bind (keeps_addWord (fun _ => hP) _ _ _ _) fun _ => keeps_connectivesWith hP _

/-- The rules of a family that has its symbols. -/
def familyRules (operand : SymbolId) (c : Connectives)
    (root andGroup andTail andOption orGroup orTail : SymbolId) : Registration SymbolId := do
  let intersect ← defer [c.intersect]
  let union ← defer [c.union]
  addRule root (.unary operand)
  addRule root (.unary andGroup)
  addRule root (.unary orGroup)
  addBinaryRule andGroup (((Proposal.binary operand andTail).deferred intersect).closing [0])
  addBinaryRule andTail ((Proposal.binary c.and operand).closing [1])
  addBinaryRule andTail ((Proposal.binary c.and andGroup).closing [1])
  addBinaryRule andTail ((Proposal.binary c.comma andGroup).closing [1])
  addRule andOption (.unary operand)
  addRule andOption (.unary andGroup)
  addBinaryRule orGroup (((Proposal.binary andOption orTail).deferred union).closing [0])
  addBinaryRule orTail ((Proposal.binary c.or andOption).closing [1])
  addBinaryRule orTail ((Proposal.binary c.or orGroup).closing [1])
  addBinaryRule orTail ((Proposal.binary c.comma orGroup).closing [1])
  modify fun ws => { ws with families := ws.families ++ [(operand, root)] }
  return root

/-- A family once its connectives are there: its six symbols, all of which are tried, and its rules. -/
def familyOf (operand : SymbolId) (names : Conjunction.FamilyNames) (c : Connectives) :
    Registration SymbolId := do
  let root ← (newSymbol [names.root]).observe
  let andGroup ← (newSymbol [names.andGroup]).observe
  let andTail ← (newSymbol [names.andTail]).observe
  let andOption ← (newSymbol [names.andOption]).observe
  let orGroup ← (newSymbol [names.orGroup]).observe
  let orTail ← (newSymbol [names.orTail]).observe
  let root ← Change.ofOutcome root
  let andGroup ← Change.ofOutcome andGroup
  let andTail ← Change.ofOutcome andTail
  let andOption ← Change.ofOutcome andOption
  let orGroup ← Change.ofOutcome orGroup
  let orTail ← Change.ofOutcome orTail
  familyRules operand c root andGroup andTail andOption orGroup orTail

theorem conjunction_eq (operand : SymbolId) : conjunction operand = (do
    if let some root := (← get).conjunctionRoot? operand then return root
    let stem := Name.stem (← ask (·.live operand)).name
    Change.ofOutcome (Conjunction.checkFamilyNames (← get) stem)
    let c ← connectivesOnce
    familyOf operand (Conjunction.familyNames stem) c) := rfl

/-- A negation once "not" and its own symbol are there. -/
def negationOf (conflicting : Option SymbolId) (stopPart : String) (not symbol : SymbolId) :
    Registration NegationSet := do
  let stopWord ← call (·.newSymbolOf true [stopPart])
  addRule symbol (.unary not)
  addBinaryRule symbol ((Proposal.binary stopWord not).closing [0])
  update fun d =>
    return { d with pendingStopWords := d.pendingStopWords ++ [(stopWord, conflicting)] }
  let set : NegationSet := ⟨symbol, stopWord, conflicting⟩
  modify fun ws => { ws with negations := ws.negations ++ [(conflicting, set)] }
  return set

theorem negation_eq (conflicting : Option SymbolId) : negation conflicting = (do
    if let some set := (← get).negations.lookup conflicting then return set
    let (part, stopPart) ← ask (Negation.nameParts · conflicting)
    ask fun d => [part, stopPart].forM (Conjunction.checkPartFree d)
    if (← get).notWord.isNone then ask (·.checkFree "[not]")
    let not ← notWordOnce
    let symbol ← newSymbol [part]
    negationOf conflicting stopPart not symbol) := rfl

theorem connectives_of_connectivesOnce {ws t : Workspace} {c : Connectives}
    (h : connectivesOnce.perform ws = (.ok c, t)) : t.connectives = some c := by
  rw [connectivesOnce_eq] at h
  obtain ⟨_, _, hget, h⟩ := perform_bind_eq_ok_iff.mp h
  cases hget
  split at h
  next known hknown =>
    cases h
    exact hknown
  next =>
    iterate 3 obtain ⟨_, _, -, h⟩ := perform_bind_eq_ok_iff.mp h
    iterate 4 obtain ⟨_, _, -, h⟩ := perform_bind_eq_ok_iff.mp h
    obtain ⟨_, _, hmodify, h⟩ := perform_bind_eq_ok_iff.mp h
    cases hmodify
    cases h
    rfl

section Steps

variable {Own : SemanticId → Prop} {Q : Option Connectives → Draft → Prop} (hQ : CompositeStep Own Q)
include hQ

theorem keeps_familyRules (operand : SymbolId) {c : Connectives} (hc : Joins Q c)
    (root andGroup andTail andOption orGroup orTail : SymbolId) :
    KeepsDraft Q (familyRules operand c root andGroup andTail andOption orGroup orTail) := by
  refine keeps_ask_bind fun intersect ws hintersect hws => ?_
  obtain rfl := Vocabulary.eq_of_defer hintersect
  refine (keeps_ask_bind fun union ws hunion hws => ?_ : KeepsDraft Q _) ws hws
  obtain rfl := Vocabulary.eq_of_defer hunion
  refine (?_ : KeepsDraft Q _) ws hws
  iterate 3 refine Keeps.bind (hQ.keeps_addRule rfl _) fun _ => ?_
  refine Keeps.bind (CompositeStep.keeps_addJoiningRule hc (f := c.intersect) (by simp) rfl _)
    fun _ => ?_
  iterate 3 refine Keeps.bind (hQ.keeps_addBinaryRule rfl _) fun _ => ?_
  iterate 2 refine Keeps.bind (hQ.keeps_addRule rfl _) fun _ => ?_
  refine Keeps.bind (CompositeStep.keeps_addJoiningRule hc (f := c.union) (by simp) rfl _)
    fun _ => ?_
  iterate 3 refine Keeps.bind (hQ.keeps_addBinaryRule rfl _) fun _ => ?_
  exact Keeps.bind (keeps_modify (fun _ => rfl) fun _ => rfl) fun _ => Keeps.pure _

theorem keeps_familyOf (operand : SymbolId) (names : Conjunction.FamilyNames) {c : Connectives}
    (hc : Joins Q c) : KeepsDraft Q (familyOf operand names c) := by
  iterate 6 refine Keeps.bind (Keeps.observe (hQ.keeps_newSymbol _)) fun _ => ?_
  iterate 6 refine Keeps.bind (Keeps.ofOutcome _) fun _ => ?_
  exact keeps_familyRules hQ _ hc _ _ _ _ _ _

theorem keeps_notWordOnce : KeepsDraft Q notWordOnce := by
  refine Keeps.bind Keeps.get fun ws => ?_
  split
  · exact Keeps.pure _
  · refine Keeps.bind (hQ.keeps_addWord _ _ _ _) fun _ => ?_
    exact Keeps.bind (keeps_modify (fun _ => rfl) fun _ => rfl) fun _ => Keeps.pure _

theorem keeps_negationOf (hdefer : ∀ c d pending, Q c d → Q c { d with pendingStopWords := pending })
    (conflicting : Option SymbolId) (stopPart : String) (not symbol : SymbolId) :
    KeepsDraft Q (negationOf conflicting stopPart not symbol) := by
  refine Keeps.bind (keeps_call fun c _ _ _ hd h => hQ.newSymbol hd h) fun _ => ?_
  refine Keeps.bind (hQ.keeps_addRule rfl _) fun _ => ?_
  refine Keeps.bind (hQ.keeps_addBinaryRule rfl _) fun _ => ?_
  refine Keeps.bind (keeps_update fun c d e hd h => ?_) fun _ => ?_
  · cases h
    exact hdefer _ _ _ hd
  · exact Keeps.bind (keeps_modify (fun _ => rfl) fun _ => rfl) fun _ => Keeps.pure _

theorem keeps_negation (conflicting : Option SymbolId)
    (hnegate : ∀ stopPart not symbol, KeepsDraft Q (negationOf conflicting stopPart not symbol)) :
    KeepsDraft Q (negation conflicting) := by
  rw [negation_eq]
  refine Keeps.bind Keeps.get fun ws => ?_
  split
  · exact Keeps.pure _
  · refine Keeps.bind (keeps_ask _) fun names => ?_
    refine Keeps.bind (keeps_ask _) fun _ => ?_
    refine Keeps.bind Keeps.get fun _ => ?_
    have hrest : KeepsDraft Q (do
        let not ← notWordOnce
        let symbol ← newSymbol [names.1]
        negationOf conflicting names.2 not symbol) :=
      Keeps.bind (keeps_notWordOnce hQ) fun _ =>
        Keeps.bind (hQ.keeps_newSymbol _) fun _ => hnegate _ _ _
    split
    · exact Keeps.bind (keeps_ask _) fun _ => hrest
    · exact hrest

theorem keeps_relativePronoun (isPerson : Bool) : KeepsDraft Q (relativePronoun isPerson) := by
  refine Keeps.bind Keeps.get fun ws => ?_
  split
  · split
    · exact Keeps.pure _
    · refine Keeps.bind (hQ.keeps_addWord _ _ _ _) fun _ => ?_
      exact Keeps.bind (keeps_modify (fun _ => rfl) fun _ => rfl) fun _ => Keeps.pure _
  · split
    · exact Keeps.pure _
    · refine Keeps.bind (hQ.keeps_addWord _ _ _ _) fun _ => ?_
      exact Keeps.bind (keeps_modify (fun _ => rfl) fun _ => rfl) fun _ => Keeps.pure _

theorem keeps_possessiveSuffixOnce : KeepsDraft Q possessiveSuffixOnce := by
  refine Keeps.bind Keeps.get fun ws => ?_
  split
  · exact Keeps.pure _
  · refine Keeps.bind (hQ.keeps_addWord _ _ _ _) fun _ => ?_
    exact Keeps.bind (keeps_modify (fun _ => rfl) fun _ => rfl) fun _ => Keeps.pure _

theorem keeps_newEntities (singular : String) (entities : List String) :
    KeepsDraft Q (newEntities singular entities) := by
  refine Keeps.bind (keeps_call fun c _ _ _ hd h => hQ.newEntityCategory hd h) fun _ => ?_
  refine Keeps.bind (hQ.keeps_newSymbol _) fun _ => ?_
  refine Keeps.bind (hQ.keeps_addRule rfl _) fun _ => ?_
  refine Keeps.bind (keeps_possessiveSuffixOnce hQ) fun _ => ?_
  refine Keeps.bind (hQ.keeps_newSymbol _) fun _ => ?_
  exact Keeps.bind (hQ.keeps_addBinaryRule rfl _) fun _ => Keeps.pure _

end Steps

variable {Own : SemanticId → Prop} {Q : Option Connectives → Draft → Prop}
  (hQ : CompositeInvariant Own Q)
include hQ

theorem keeps_conjunction (operand : SymbolId) : KeepsDraft Q (conjunction operand) := by
  rw [conjunction_eq]
  refine Keeps.bind Keeps.get fun ws => ?_
  split
  · exact Keeps.pure _
  · refine Keeps.bind (keeps_ask _) fun _ => ?_
    refine Keeps.bind Keeps.get fun _ => ?_
    refine Keeps.bind (Keeps.ofOutcome _) fun _ => ?_
    refine fun ws hws => Keeps.bind_at (P := fun ws : Workspace => Q ws.connectives ws.draft)
      (hQ.connect ws hws) fun c t hc ht => ?_
    have hstep := hQ.toCompositeStep
    exact (keeps_familyOf (hstep.at c) _ _ (hstep.joins c) t
      ⟨ht, connectives_of_connectivesOnce hc⟩).1

theorem keeps_newCategory (spec : CategoryWords) : KeepsDraft Q (newCategory spec) := by
  have hstep := hQ.toCompositeStep
  refine Keeps.bind Keeps.get fun ws => ?_
  refine Keeps.bind (Keeps.ofOutcome _) fun _ => ?_
  refine Keeps.bind (hstep.keeps_addWord _ _ _ _) fun _ => ?_
  iterate 7 refine Keeps.bind (hstep.keeps_newSymbol _) fun _ => ?_
  refine keeps_call_bind (fun _ _ id _ hd h => hstep.newSemantic hd h) fun all hall => ?_
  refine Keeps.bind (hstep.keeps_addRule rfl _) fun _ => ?_
  refine Keeps.bind (hstep.keeps_addBinaryRule rfl _) fun _ => ?_
  refine Keeps.bind (keeps_relativePronoun hstep _) fun _ => ?_
  refine Keeps.bind (hstep.keeps_addBinaryRule rfl _) fun _ => ?_
  refine Keeps.bind (hstep.keeps_addRule rfl _) fun _ => ?_
  refine Keeps.bind (hstep.keeps_addBinaryRule rfl _) fun _ => ?_
  refine Keeps.bind (hstep.keeps_addRule rfl _) fun _ => ?_
  refine Keeps.bind (keeps_conjunction hQ _) fun _ => ?_
  refine keeps_ask_bind fun forest ws hforest hws => ?_
  refine Keeps.bind_at (P := fun ws : Workspace => Q ws.connectives ws.draft)
    (hstep.addLeafRule_at hws hall hforest rfl) fun _ t _ ht => ?_
  refine (?_ : KeepsDraft Q _) t ht
  refine Keeps.bind (hstep.keeps_addBinaryRule rfl _) fun _ => ?_
  dsimp only
  split
  · refine Keeps.bind (Keeps.map _ (keeps_newEntities hstep _ _)) fun _ => ?_
    exact Keeps.bind (keeps_modify (fun _ => rfl) fun _ => rfl) fun _ => Keeps.pure _
  · refine Keeps.bind (Keeps.pure _) fun _ => ?_
    exact Keeps.bind (keeps_modify (fun _ => rfl) fun _ => rfl) fun _ => Keeps.pure _

theorem keeps_category (spec : CategoryWords) : KeepsDraft Q (category spec) := by
  refine Keeps.bind Keeps.get fun ws => ?_
  split
  · exact Keeps.pure _
  · exact keeps_newCategory hQ spec

end Workspace

/-- A property of the connectives and the draft that every single step of registration keeps, and so
do the registration of the connectives and a negation once its symbol is there. -/
structure RegistrationInvariant (Q : Option Connectives → Draft → Prop) : Prop where
  step : ∀ c, PlainStepInvariant (Q c)
  connect : Registration.KeepsDraft Q Workspace.connectivesOnce
  negate : ∀ conflicting stopPart not symbol,
    Registration.KeepsDraft Q (Workspace.negationOf conflicting stopPart not symbol)

theorem RegistrationInvariant.composite {Q : Option Connectives → Draft → Prop}
    (hQ : RegistrationInvariant Q) : CompositeInvariant (fun _ => True) Q :=
  ⟨.of_plainStepInvariant hQ.step, hQ.connect⟩

/-- Where deferring stop words is a step like the others, so is a negation. -/
theorem RegistrationInvariant.of_stepInvariant {Q : Option Connectives → Draft → Prop}
    (hQ : ∀ c, StepInvariant (Q c)) (hconnect : Registration.KeepsDraft Q Workspace.connectivesOnce) :
    RegistrationInvariant Q where
  step c := (hQ c).toPlainStepInvariant
  connect := hconnect
  negate := Workspace.keeps_negationOf (.of_plainStepInvariant fun c => (hQ c).toPlainStepInvariant)
    fun c _ pending hd => (hQ c).deferStopWords pending hd

theorem RegistrationCall.keeps {Q : Option Connectives → Draft → Prop}
    (hQ : RegistrationInvariant Q) {α : Type} {x : Registration α} (h : RegistrationCall x) :
    Registration.KeepsDraft Q x := by
  cases h with
  | newSymbol parts => exact Registration.keeps_newSymbol hQ.step parts
  | addRule id p => exact Registration.keeps_addRule hQ.step id p
  | addBinaryRule id p => exact Registration.keeps_addBinaryRule hQ.step id p
  | addWord name accepted substituted cost => exact Registration.keeps_addWord hQ.step _ _ _ _
  | newTermSequence t => exact Registration.keeps_call fun c _ _ _ hd h => (hQ.step c).addLexical hd h
  | addVerb v => exact Registration.keeps_call fun c _ _ _ hd h => (hQ.step c).addLexical hd h
  | addPronoun p => exact Registration.keeps_call fun c _ _ _ hd h => (hQ.step c).addLexical hd h
  | newPhrase => exact Registration.keeps_call fun c _ _ _ hd h => (hQ.step c).newPhrase hd h
  | newSemantic definition => exact Registration.keeps_newSemantic hQ.step definition
  | semantic definition => exact Registration.keeps_semantic hQ.step definition
  | newEntityCategory =>
    exact Registration.keeps_call fun c _ _ _ hd h => (hQ.step c).newEntityCategory hd h
  | conjunction operand => exact Workspace.keeps_conjunction hQ.composite operand
  | negation conflicting =>
    exact Workspace.keeps_negation hQ.composite.toCompositeStep conflicting (hQ.negate conflicting)
  | category spec => exact Workspace.keeps_category hQ.composite spec
  | newCategory spec => exact Workspace.keeps_newCategory hQ.composite spec

theorem StepInvariant.registration {P : Draft → Prop} (hP : StepInvariant P) :
    RegistrationInvariant fun _ => P :=
  .of_stepInvariant (fun _ => hP) (Workspace.keeps_connectivesOnce hP.toPlainStepInvariant)

section StepInvariant

variable {P : Draft → Prop} (hP : StepInvariant P)
include hP

theorem StopWords.keeps_fillOne (stopWord : SymbolId) (words : List String) :
    Keeps P (fillOne stopWord words) := by
  refine Keeps.forM fun word _ => Keeps.call fun d _ e hd h => ?_
  obtain ⟨f, hf, heq⟩ := Outcome.ok_of_bind h
  cases heq
  exact hP.addRule hd hf

theorem StopWords.keeps_fill : Keeps P StopWords.fill := by
  intro d hd
  rw [fill, perform_bind, perform_get]
  dsimp only
  rw [perform_bind, perform_set]
  have hrest : ∀ settled : List (SymbolId × List String), Keeps P (do
      settled.forM fun x => fillOne x.1 x.2
      return settled.length : Change Draft Nat) := fun settled =>
    Keeps.bind (Keeps.forM fun x _ => keeps_fillOne hP x.1 x.2) fun _ => Keeps.pure _
  exact hrest _ _ (hP.deferStopWords [] hd)

/-- What every step keeps and an empty draft has, every registered draft has. -/
theorem Registered.induction {ws : Workspace} (h : Registered ws) (hempty : P Draft.empty) :
    P ws.draft := by
  induction h with
  | init => exact hempty
  | call _ hcall ih => exact hcall.keeps hP.registration _ ih

end StepInvariant

theorem sound_stepInvariant : StepInvariant Draft.Sound where
  newSymbol hd h := (hd.newSymbolOf h).1
  addRule hd h := hd.addRule h
  addLexical hd h := hd.addLexical h
  newPhrase hd h := hd.newPhrase h
  newSemantic hd h := hd.newSemantic h
  newEntityCategory hd h := hd.newEntityCategory h
  deferStopWords pending hd := hd.deferStopWords pending

theorem Registered.sound {ws : Workspace} (h : Registered ws) : ws.draft.Sound :=
  h.induction sound_stepInvariant Draft.sound_empty

/-- The draft with its stop words filled, as finishing finds it. -/
def Draft.filled (d : Draft) : Draft := (StopWords.fill.perform d).2

theorem Draft.Sound.filled {d : Draft} (h : d.Sound) : d.filled.Sound :=
  StopWords.keeps_fill sound_stepInvariant d h

end QueryGrammar
