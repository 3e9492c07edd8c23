import QueryGrammar.Proofs.Conjunction.Connectives
import QueryGrammar.Proofs.Rule.Costs
/-!
What is registered for a conjunction. The six symbols of a family are new and get their rules one
after another, so when the call answers they have these rules and no others. With connectives that
are different from each other the family then reads what it is to read.
-/
namespace QueryGrammar

open Change Conjunction

namespace Proposal

/-- The rule that a proposal over one symbol gives. -/
def unaryRule (p : Proposal) (part : SymbolId) : Rule where
  expansion := .unary part (!p.noInsertion.isEmpty)
  semantic := p.semantic
  features := p.features
  insertionCost := p.insertionCost

/-- The rule that a proposal over two symbols gives. -/
def binaryRule (p : Proposal) (first second : SymbolId) : Rule where
  expansion := .binary first second p.transpositionCost
    ⟨p.noInsertion.contains 0, p.noInsertion.contains 1⟩
  semantic := p.semantic
  features := p.features
  insertionCost := p.insertionCost

end Proposal

namespace Draft

variable {d : Draft} {X : SymbolId} {r : Rule} {pairs : List (SymbolId × Rule)}

/-! ### Rules given to new symbols -/

/-- The draft after each of these symbols has been given a rule. -/
def appendRules (d : Draft) (pairs : List (SymbolId × Rule)) : Draft :=
  pairs.foldl (fun d x => d.appendRule x.1 x.2) d

theorem keepsNames_appendRules (d : Draft) (pairs : List (SymbolId × Rule)) :
    d.KeepsNames (d.appendRules pairs) := by
  induction pairs generalizing d with
  | nil => exact .refl d
  | cons x pairs ih => exact (d.keepsNames_appendRule x.1 x.2).trans (ih _)

theorem get?_appendRule (hlacks : d.lacks X r = true) (Y : SymbolId) :
    (d.appendRule X r).get? Y = (d.get? Y).map fun s =>
      if Y = X then { s with rules := s.rules ++ [r] } else s := by
  have hindex : X.index = Y.index ↔ Y = X := by
    cases X
    cases Y
    simp [eq_comm]
  rw [appendRule, if_pos hlacks, get?, d.getElem?_modifyRules X (· ++ [r]), get?]
  cases d.symbols[Y.index]? with
  | none => rfl
  | some s => by_cases hY : Y = X <;> cases hp : s.pruned <;> simp [Option.filter, hindex, hY, hp]

theorem lacks_of_notMem (hr : r.Unsigned) (hrules : ∀ q ∈ d.rules X, q.Unsigned)
    (hnot : r ∉ d.rules X) : d.lacks X r = true := by
  rw [lacks, Bool.not_eq_true', ← Bool.not_eq_true, List.contains_eq_any_beq]
  intro h
  obtain ⟨q, hq, heq⟩ := List.any_eq_true.mp h
  exact hnot (Rule.eq_of_beq hr (hrules q hq) heq ▸ hq)

/-- A symbol has the rules it had and then, in their order, those it was given, where all of them are
different. -/
theorem get?_appendRules {s : Symbol} (hX : d.get? X = some s)
    (hnodup : (s.rules ++ (pairs.filter (·.1 = X)).map Prod.snd).Nodup)
    (hunsigned : ∀ q ∈ s.rules ++ (pairs.filter (·.1 = X)).map Prod.snd, q.Unsigned) :
    (d.appendRules pairs).get? X =
      some { s with rules := s.rules ++ (pairs.filter (·.1 = X)).map Prod.snd } := by
  induction pairs generalizing d s with
  | nil => simpa [appendRules] using hX
  | cons x pairs ih =>
    obtain ⟨Y, r⟩ := x
    by_cases hY : Y = X
    · subst hY
      simp only [List.filter_cons, decide_true, if_true, List.map_cons] at hnodup hunsigned ⊢
      have hlacks : d.lacks Y r = true := by
        refine lacks_of_notMem (hunsigned r (by simp)) (fun q hq => ?_) ?_
        · rw [rules_of_get? hX] at hq
          exact hunsigned q (List.mem_append_left _ hq)
        · rw [rules_of_get? hX]
          exact fun hmem => List.disjoint_of_nodup_append hnodup hmem List.mem_cons_self
      have hget : (d.appendRule Y r).get? Y = some { s with rules := s.rules ++ [r] } := by
        rw [get?_appendRule hlacks, hX]
        simp
      have hrest := ih hget (by simpa using hnodup) (by simpa using hunsigned)
      simpa [appendRules] using hrest
    · have hget : (d.appendRule Y r).get? X = some s := by
        by_cases hlacks : d.lacks Y r = true
        · rw [get?_appendRule hlacks, hX]
          simp [Ne.symm hY]
        · rw [appendRule, if_neg hlacks, hX]
      have hfilter : ((Y, r) :: pairs).filter (·.1 = X) = pairs.filter (·.1 = X) := by simp [hY]
      rw [hfilter] at hnodup hunsigned ⊢
      exact ih hget hnodup hunsigned

/-- The rule that a proposal over symbols gives. -/
theorem ruleOf_eq {p : Proposal} {ids : List SymbolId} (hrhs : p.rhs = .symbols ids)
    (h : d.ruleOf X p = .ok r) : ∃ owner, d.symbolExpansion owner p ids = .ok r.expansion ∧
      r = { expansion := r.expansion, semantic := p.semantic, features := p.features,
            insertionCost := p.insertionCost } := by
  unfold ruleOf expansionOf at h
  rw [hrhs] at h
  simp only [Outcome.bind_eq_ok_iff, Outcome.guard_eq_ok_iff] at h
  obtain ⟨owner, -, x, hx, -, _, -, _, -, h⟩ := h
  cases h
  exact ⟨owner.name, hx, rfl⟩

theorem eq_unary_of_ruleOf {p : Proposal} {part : SymbolId} (hrhs : p.rhs = .symbols [part])
    (h : d.ruleOf X p = .ok r) : r = p.unaryRule part := by
  obtain ⟨owner, hx, hr⟩ := ruleOf_eq hrhs h
  obtain ⟨-, -, ⟨_, heq, hexpansion⟩ | ⟨_, _, heq, -⟩⟩ := symbolExpansion_eq hx
  · cases heq
    rw [hr, hexpansion]
    rfl
  · cases heq

theorem eq_binary_of_ruleOf {p : Proposal} {first second : SymbolId}
    (hrhs : p.rhs = .symbols [first, second]) (h : d.ruleOf X p = .ok r) :
    r = p.binaryRule first second := by
  obtain ⟨owner, hx, hr⟩ := ruleOf_eq hrhs h
  obtain ⟨-, -, ⟨_, heq, -⟩ | ⟨_, _, heq, -, hexpansion⟩⟩ := symbolExpansion_eq hx
  · cases heq
  · cases heq
    rw [hr, hexpansion]
    rfl

end Draft

/-! ### The calls that make a family -/

namespace Change

variable {σ α β : Type} {s t : σ} {b : β}

theorem perform_get_bind (f : σ → Change σ β) (s : σ) :
    ((get : Change σ σ) >>= f).perform s = (f s).perform s := rfl

theorem perform_observe_bind (x : Change σ α) (f : Outcome α → Change σ β) (s : σ) :
    (x.observe >>= f).perform s = (f (x.perform s).1).perform (x.perform s).2 := rfl

theorem perform_ofOutcome_bind_eq_ok_iff {x : Outcome α} {f : α → Change σ β} :
    (ofOutcome x >>= f).perform s = (.ok b, t) ↔
      ∃ a, x = .ok a ∧ (f a).perform s = (.ok b, t) := by
  rw [perform_bind, perform_ofOutcome]
  cases x <;> simp

end Change

/-- The workspace with one more symbol. -/
def Workspace.withSymbol (ws : Workspace) (part : String) : Workspace :=
  { ws with draft := (ws.draft.appendSymbol { name := "[" ++ part ++ "]" }).2 }

@[simp] theorem Workspace.length_withSymbol (ws : Workspace) (part : String) :
    (ws.withSymbol part).draft.symbols.length = ws.draft.symbols.length + 1 := by
  simp [withSymbol, Draft.appendSymbol]

/-- The workspace with symbols of these name parts. -/
def Workspace.withSymbols (ws : Workspace) (parts : List String) : Workspace :=
  parts.foldl Workspace.withSymbol ws

theorem Workspace.withSymbols_eq (ws : Workspace) (parts : List String) :
    ws.withSymbols parts = { ws with draft := { ws.draft with
      symbols := ws.draft.symbols ++ parts.map fun part => { name := "[" ++ part ++ "]" } } } := by
  induction parts generalizing ws with
  | nil => simp [withSymbols]
  | cons part parts ih =>
    have hcons : ws.withSymbols (part :: parts) = (ws.withSymbol part).withSymbols parts := rfl
    rw [hcons, ih]
    simp [withSymbol, Draft.appendSymbol]

theorem Workspace.keepsNames_withSymbols (ws : Workspace) (parts : List String) :
    ws.draft.KeepsNames (ws.withSymbols parts).draft := by
  induction parts generalizing ws with
  | nil => exact .refl _
  | cons part parts ih => exact (ws.draft.keepsNames_appendSymbol _).trans (ih (ws.withSymbol part))

namespace Registration

variable {α β : Type} {ws ws' : Workspace} {X : SymbolId}

theorem perform_ask_bind_eq_ok_iff {f : Draft → Outcome α} {g : α → Registration β} {b : β} :
    (ask f >>= g).perform ws = (.ok b, ws') ↔
      ∃ a, f ws.draft = .ok a ∧ (g a).perform ws = (.ok b, ws') := by
  have hask : (ask f).perform ws = (f ws.draft, ws) := rfl
  rw [perform_bind, hask]
  cases f ws.draft <;> simp

theorem eq_of_symbol {part name : String} (h : Name.symbol [part] = .ok name) :
    name = "[" ++ part ++ "]" := by
  unfold Name.symbol at h
  simp only [Outcome.guard_eq_ok_iff, Outcome.bind_eq_ok_iff] at h
  obtain ⟨-, _, -, h⟩ := h
  rw [← Except.ok.inj h]
  rfl

theorem newSymbol_eq_ok {part : String} (h : ((newSymbol [part]).perform ws).1 = .ok X) :
    X = ⟨ws.draft.symbols.length⟩ ∧ ((newSymbol [part]).perform ws).2 = ws.withSymbol part := by
  have hok : (newSymbol [part]).perform ws = (.ok X, ((newSymbol [part]).perform ws).2) :=
    Prod.ext h rfl
  obtain ⟨e, hnew, heq⟩ := call_eq_ok hok
  obtain ⟨name, hname, -, hpair⟩ := Draft.newSymbolOf_eq hnew
  obtain ⟨rfl, rfl⟩ := Prod.mk.inj hpair
  rw [eq_of_symbol hname] at heq
  exact ⟨rfl, heq⟩

theorem update_eq_ok {f : Draft → Outcome Draft} {a : Unit}
    (h : (update f).perform ws = (.ok a, ws')) :
    ∃ e, f ws.draft = .ok e ∧ ws' = { ws with draft := e } := by
  obtain ⟨e, hcall, rfl⟩ := call_eq_ok h
  obtain ⟨g, hg, heq⟩ := Outcome.ok_of_bind hcall
  cases heq
  exact ⟨_, hg, rfl⟩

/-- If it answers, it answers this, and it has given these rules to these symbols. -/
def Adds (x : Registration α) (pairs : List (SymbolId × Rule)) (answer : α) : Prop :=
  ∀ ws a ws', x.perform ws = (.ok a, ws') → a = answer ∧
    ws'.draft = ws.draft.appendRules pairs ∧ ws'.connectives = ws.connectives

theorem Adds.bind {x : Registration α} {f : α → Registration β} {xs ys : List (SymbolId × Rule)}
    {a : α} {b : β} (hx : Adds x xs a) (hf : ∀ a, Adds (f a) ys b) : Adds (x >>= f) (xs ++ ys) b := by
  intro ws answer ws' h
  obtain ⟨middle, between, hfirst, hrest⟩ := perform_bind_eq_ok_iff.mp h
  obtain ⟨-, hdraft, hconnectives⟩ := hx ws middle between hfirst
  obtain ⟨hanswer, hdraft', hconnectives'⟩ := hf middle between answer ws' hrest
  refine ⟨hanswer, ?_, hconnectives'.trans hconnectives⟩
  rw [hdraft', hdraft, Draft.appendRules, Draft.appendRules, Draft.appendRules, List.foldl_append]

theorem adds_of_addRule {e : Draft} {p : Proposal} {r : Rule}
    (hrule : ∀ {d : Draft} {q : Rule}, d.ruleOf X p = .ok q → q = r)
    (h : ws.draft.addRule X p = .ok e) : e = ws.draft.appendRules [(X, r)] := by
  obtain ⟨q, hq, heq⟩ := Outcome.ok_of_bind h
  cases heq
  rw [hrule hq]
  rfl

theorem adds_unary (X part : SymbolId) :
    Adds (addRule X (.unary part)) [(X, single part)] () := by
  intro ws a ws' h
  unfold addRule at h
  obtain ⟨e, hadd, rfl⟩ := update_eq_ok h
  exact ⟨rfl, adds_of_addRule (Draft.eq_unary_of_ruleOf rfl) hadd, rfl⟩

theorem adds_binary {p : Proposal} {r : Rule}
    (hrule : ∀ {d : Draft} {q : Rule}, d.ruleOf X p = .ok q → q = r) :
    Adds (addBinaryRule X p) [(X, r)] () := by
  intro ws a ws' h
  unfold addBinaryRule at h
  obtain ⟨e, hadd, rfl⟩ := update_eq_ok h
  exact ⟨rfl, adds_of_addRule hrule (addRule_of_addBinaryRule hadd), rfl⟩

theorem adds_after (X connective part : SymbolId) :
    Adds (addBinaryRule X ((Proposal.binary connective part).closing [1]))
      [(X, after connective part)] () :=
  adds_binary (Draft.eq_binary_of_ruleOf rfl)

theorem adds_joining (X first rest : SymbolId) (function : SemanticId) :
    Adds (addBinaryRule X (((Proposal.binary first rest).deferred [function]).closing [0]))
      [(X, joining function first rest)] () :=
  adds_binary (Draft.eq_binary_of_ruleOf rfl)

theorem adds_answer (operand root : SymbolId) :
    Adds (modify (fun ws => { ws with families := ws.families ++ [(operand, root)] }) >>=
      fun _ => pure root) [] root := by
  intro ws a ws' h
  cases h
  exact ⟨rfl, rfl, rfl⟩

end Registration

namespace Conjunction

def Part.all : List Part := [.root, .andGroup, .andTail, .andOption, .orGroup, .orTail]

def Part.index : Part → Nat
  | root => 0
  | andGroup => 1
  | andTail => 2
  | andOption => 3
  | orGroup => 4
  | orTail => 5

/-- The family whose symbols follow the first `count` ones. -/
def Family.next (operand : SymbolId) (c : Connectives) (count : Nat) : Family where
  operand := operand
  connectives := c
  symbol p := ⟨count + p.index⟩

/-- The rules of the family in the order of registration. -/
def Family.additions (f : Family) : List (SymbolId × Rule) :=
  Part.all.flatMap fun p => (f.rules p).map (Prod.mk (f.symbol p))

/-- The name parts of the symbols of a family. -/
def nameParts (stem : String) : List String := Part.all.map (Part.name (familyNames stem))

end Conjunction

namespace Registration

/-- A family is given its rules. -/
theorem adds_rules (f : Family) : Adds (do
    addRule (f.symbol .root) (.unary f.operand)
    addRule (f.symbol .root) (.unary (f.symbol .andGroup))
    addRule (f.symbol .root) (.unary (f.symbol .orGroup))
    addBinaryRule (f.symbol .andGroup)
      (((Proposal.binary f.operand (f.symbol .andTail)).deferred
        [f.connectives.intersect]).closing [0])
    addBinaryRule (f.symbol .andTail)
      ((Proposal.binary f.connectives.and f.operand).closing [1])
    addBinaryRule (f.symbol .andTail)
      ((Proposal.binary f.connectives.and (f.symbol .andGroup)).closing [1])
    addBinaryRule (f.symbol .andTail)
      ((Proposal.binary f.connectives.comma (f.symbol .andGroup)).closing [1])
    addRule (f.symbol .andOption) (.unary f.operand)
    addRule (f.symbol .andOption) (.unary (f.symbol .andGroup))
    addBinaryRule (f.symbol .orGroup)
      (((Proposal.binary (f.symbol .andOption) (f.symbol .orTail)).deferred
        [f.connectives.union]).closing [0])
    addBinaryRule (f.symbol .orTail)
      ((Proposal.binary f.connectives.or (f.symbol .andOption)).closing [1])
    addBinaryRule (f.symbol .orTail)
      ((Proposal.binary f.connectives.or (f.symbol .orGroup)).closing [1])
    addBinaryRule (f.symbol .orTail)
      ((Proposal.binary f.connectives.comma (f.symbol .orGroup)).closing [1])
    modify fun ws => { ws with families := ws.families ++ [(f.operand, f.symbol .root)] }
    return f.symbol .root) f.additions (f.symbol .root) := by
  refine (adds_unary _ _).bind fun _ => (adds_unary _ _).bind fun _ => ?_
  refine (adds_unary _ _).bind fun _ => (adds_joining _ _ _ _).bind fun _ => ?_
  refine (adds_after _ _ _).bind fun _ => (adds_after _ _ _).bind fun _ => ?_
  refine (adds_after _ _ _).bind fun _ => (adds_unary _ _).bind fun _ => ?_
  refine (adds_unary _ _).bind fun _ => (adds_joining _ _ _ _).bind fun _ => ?_
  refine (adds_after _ _ _).bind fun _ => (adds_after _ _ _).bind fun _ => ?_
  exact (adds_after _ _ _).bind fun _ => adds_answer _ _

end Registration

namespace Workspace

open Registration

variable {ws ws' : Workspace} {operand root : SymbolId}

/-- What a conjunction that answers has registered. -/
theorem conjunction_eq_ok (hnew : ws.conjunctionRoot? operand = none)
    (h : (conjunction operand).perform ws = (.ok root, ws')) :
    ∃ owner c ws₁, ws.draft.get? operand = some owner ∧ connectivesOnce.perform ws = (.ok c, ws₁) ∧
      root = (Family.next operand c ws₁.draft.symbols.length).symbol .root ∧
      ws'.draft = (ws₁.withSymbols (nameParts (Name.stem owner.name))).draft.appendRules
        (Family.next operand c ws₁.draft.symbols.length).additions ∧
      ws'.connectives = (ws₁.withSymbols (nameParts (Name.stem owner.name))).connectives := by
  unfold conjunction at h
  simp only [perform_get_bind, hnew, perform_ask_bind_eq_ok_iff, perform_ofOutcome_bind_eq_ok_iff]
    at h
  obtain ⟨owner, hlive, _, -, h⟩ := h
  obtain ⟨c, ws₁, hconnectives, h⟩ := perform_bind_eq_ok_iff.mp h
  simp only [perform_observe_bind, perform_ofOutcome_bind_eq_ok_iff, defer,
    perform_ask_bind_eq_ok_iff] at h
  obtain ⟨id₀, h₀, id₁, h₁, id₂, h₂, id₃, h₃, id₄, h₄, id₅, h₅, intersect, hintersect, union,
    hunion, h⟩ := h
  obtain ⟨hid₀, hs⟩ := newSymbol_eq_ok h₀
  rw [hs] at h₁ h₂ h₃ h₄ h₅ h
  obtain ⟨hid₁, hs⟩ := newSymbol_eq_ok h₁
  rw [hs] at h₂ h₃ h₄ h₅ h
  obtain ⟨hid₂, hs⟩ := newSymbol_eq_ok h₂
  rw [hs] at h₃ h₄ h₅ h
  obtain ⟨hid₃, hs⟩ := newSymbol_eq_ok h₃
  rw [hs] at h₄ h₅ h
  obtain ⟨hid₄, hs⟩ := newSymbol_eq_ok h₄
  rw [hs] at h₅ h
  obtain ⟨hid₅, hs⟩ := newSymbol_eq_ok h₅
  rw [hs] at h
  simp only [length_withSymbol] at hid₁ hid₂ hid₃ hid₄ hid₅
  obtain rfl := Vocabulary.eq_of_defer hintersect
  obtain rfl := Vocabulary.eq_of_defer hunion
  obtain ⟨f, hf⟩ : ∃ f, f = Family.next operand c ws₁.draft.symbols.length := ⟨_, rfl⟩
  have hoperand : f.operand = operand := by rw [hf]; rfl
  have hc : f.connectives = c := by rw [hf]; rfl
  obtain rfl : id₀ = f.symbol .root := by rw [hid₀, hf]; rfl
  obtain rfl : id₁ = f.symbol .andGroup := by rw [hid₁, hf]; rfl
  obtain rfl : id₂ = f.symbol .andTail := by rw [hid₂, hf]; rfl
  obtain rfl : id₃ = f.symbol .andOption := by rw [hid₃, hf]; rfl
  obtain rfl : id₄ = f.symbol .orGroup := by rw [hid₄, hf]; rfl
  obtain rfl : id₅ = f.symbol .orTail := by rw [hid₅, hf]; rfl
  have hadds := adds_rules f
  rw [hoperand, hc] at hadds
  obtain ⟨hroot, hdraft, hkept⟩ := hadds _ _ _ h
  rw [hf] at hroot hdraft
  refine ⟨owner, c, ws₁, ?_, hconnectives, hroot, hdraft, hkept⟩
  unfold Draft.live at hlive
  split at hlive
  next s hs => exact Except.ok.inj hlive ▸ hs
  next => cases hlive

end Workspace

/-! ### The family that is registered -/

namespace Conjunction.Family

variable {f : Family} {operand : SymbolId} {c : Connectives} {d : Draft} {count : Nat}

theorem index_injective : Function.Injective Part.index := by
  intro p q h
  cases p <;> cases q <;> first | rfl | exact absurd h (by decide)

theorem unsigned_rules {p : Part} {r : Rule} (hr : r ∈ f.rules p) : r.Unsigned := by
  have hnone : r.costs = [] := by
    cases p <;> simp only [rules, List.mem_cons, List.not_mem_nil, or_false] at hr <;>
      rcases hr with rfl | rfl | rfl <;> rfl
  simp [Rule.Unsigned, hnone]

theorem rules_of_additions (hf : f.Separate) (p : Part) :
    (f.additions.filter (·.1 = f.symbol p)).map Prod.snd = f.rules p := by
  have hsymbol : ∀ q, (f.symbol q = f.symbol p) = (q = p) := fun q => propext hf.symbols.eq_iff
  cases p <;> simp [additions, Part.all, rules, hsymbol]

theorem nodup_rules (hf : f.Separate) (p : Part) : (f.rules p).Nodup := by
  have hoperand := hf.operand
  have hsymbol : ∀ p q, (f.symbol p = f.symbol q) = (p = q) := fun p q => propext hf.symbols.eq_iff
  have hand : f.connectives.and ≠ f.connectives.comma :=
    hf.distinct.ne (show Separator.and ≠ .comma by decide)
  have hor : f.connectives.or ≠ f.connectives.comma :=
    hf.distinct.ne (show Separator.or ≠ .comma by decide)
  cases p <;> simp [rules, single, after, hoperand, hsymbol, hand, hor]

/-- The symbols that come next are new, and registered connectives are told apart by their names. -/
theorem separate_next (hc : Named d c) (hcount : d.symbols.length ≤ count)
    (hoperand : operand.index < count) : (next operand c count).Separate where
  symbols p q h := index_injective (Nat.add_left_cancel (congrArg SymbolId.index h))
  operand p h := by
    have hindex : operand.index = count + p.index := congrArg SymbolId.index h
    omega
  separators s p h := by
    have hindex : (separatorOf c s).index = count + p.index := congrArg SymbolId.index h
    have hlength := hc.lt_length s
    omega
  distinct := hc.injective
  functions := hc.intersect_ne_union

end Conjunction.Family

namespace Workspace

open Registration

variable {ws ws' : Workspace} {operand root : SymbolId}

theorem get?_withSymbols (ws : Workspace) (operand : SymbolId) (c : Connectives) (stem : String)
    (p : Part) : (ws.withSymbols (nameParts stem)).draft.get?
        ((Family.next operand c ws.draft.symbols.length).symbol p) =
      some { name := "[" ++ p.name (familyNames stem) ++ "]" } := by
  rw [withSymbols_eq, Draft.get?]
  cases p <;> simp [Family.next, nameParts, Part.all, Part.index, Option.filter]

/-- Each symbol that is made for a family ends up with its rules and no others. -/
theorem get?_withFamily (stem : String) {f : Family}
    (hf : f = Family.next f.operand f.connectives ws.draft.symbols.length) (hseparate : f.Separate)
    (p : Part) : ((ws.withSymbols (nameParts stem)).draft.appendRules f.additions).get? (f.symbol p) =
      some { name := "[" ++ p.name (familyNames stem) ++ "]", rules := f.rules p } := by
  have hmade : (ws.withSymbols (nameParts stem)).draft.get? (f.symbol p) =
      some { name := "[" ++ p.name (familyNames stem) ++ "]" } := by
    rw [hf]
    exact get?_withSymbols ws f.operand f.connectives stem p
  have hadded := Family.rules_of_additions hseparate p
  have hnodup := Family.nodup_rules hseparate p
  have hunsigned : ∀ r ∈ f.rules p, r.Unsigned := fun r hr => Family.unsigned_rules hr
  rw [← hadded] at hnodup hunsigned ⊢
  exact Draft.get?_appendRules hmade hnodup hunsigned

/-- The connectives that a conjunction takes or registers stand under their names. -/
theorem named_connectivesOnce {c : Connectives} (hws : Connected ws.connectives ws.draft)
    (h : connectivesOnce.perform ws = (.ok c, ws')) :
    ws'.connectives = some c ∧ Named ws'.draft c ∧ ws.draft.KeepsNames ws'.draft := by
  rcases connectivesOnce_eq_ok h with ⟨hsome, rfl⟩ | hregistered
  · exact ⟨hsome, hws.2 c hsome, .refl _⟩
  · exact hregistered

end Workspace

/-- Whatever has been called before, a conjunction that is built for an operand without one is a
family of new symbols. They are named after the operand, have the rules of a family and no others,
and read what a family is to read. -/
theorem Built.conjunction_reads {ws ws' : Workspace} {operand root : SymbolId} (h : Built ws)
    (hnew : ws.conjunctionRoot? operand = none)
    (hok : (Workspace.conjunction operand).perform ws = (.ok root, ws')) :
    ∃ f : Family, f.operand = operand ∧ f.symbol .root = root ∧
      ws'.connectives = some f.connectives ∧ Named ws'.draft f.connectives ∧ f.Separate ∧
      (∀ p, (ws'.draft.get? (f.symbol p)).map (·.name) =
        some ("[" ++ p.name (familyNames (Name.stem (ws.draft.symbolName operand))) ++ "]")) ∧
      (∀ p, ws'.draft.rules (f.symbol p) = f.rules p) ∧ f.Reads ws'.draft := by
  obtain ⟨owner, c, ws₁, hlive, hc, rfl, hdraft, hconnectives⟩ :=
    Workspace.conjunction_eq_ok hnew hok
  obtain ⟨hsome, hnamed, hkeeps⟩ := Workspace.named_connectivesOnce h.connected hc
  have hname := hkeeps.symbols operand.index owner.name (by
    rw [List.getElem?_map, (Draft.get?_eq_some_iff.mp hlive).1, Option.map_some])
  have hoperand : operand.index < ws₁.draft.symbols.length := by
    simpa using (List.getElem?_eq_some_iff.mp hname).1
  have hseparate := Family.separate_next hnamed le_rfl hoperand
  have hget := ws₁.get?_withFamily (Name.stem owner.name) rfl hseparate
  rw [← hdraft] at hget
  have hrules := fun p => Draft.rules_of_get? (hget p)
  refine ⟨_, rfl, rfl, ?_, ?_, hseparate, fun p => ?_, hrules, hseparate.reads hrules⟩
  · rw [hconnectives, Workspace.withSymbols_eq]
    exact hsome
  · have hmade := ws₁.keepsNames_withSymbols (nameParts (Name.stem owner.name))
    rw [hdraft]
    exact hnamed.mono (hmade.trans (Draft.keepsNames_appendRules _ _))
  · rw [hget, Draft.symbolName_of_get? hlive]
    rfl

/-- A workspace with one symbol, for names. -/
def naming : Workspace := ((Registration.newSymbol ["name"]).perform {}).2

theorem conjunction_reads_naming : ∃ ws', (Workspace.conjunction ⟨1⟩).perform naming = (.ok ⟨5⟩, ws') ∧
    ∃ f : Family, f.operand = ⟨1⟩ ∧ f.symbol .root = ⟨5⟩ ∧ f.Reads ws'.draft := by
  have hbuilt : Built naming := Built.init.call (.register (.newSymbol ["name"]))
  have hanswer : ((Workspace.conjunction ⟨1⟩).perform naming).1 = .ok ⟨5⟩ := rfl
  have hok : (Workspace.conjunction ⟨1⟩).perform naming =
      (.ok ⟨5⟩, ((Workspace.conjunction ⟨1⟩).perform naming).2) := Prod.ext hanswer rfl
  obtain ⟨f, hoperand, hroot, -, -, -, -, -, hreads⟩ := hbuilt.conjunction_reads rfl hok
  exact ⟨_, hok, f, hoperand, hroot, hreads⟩

end QueryGrammar
