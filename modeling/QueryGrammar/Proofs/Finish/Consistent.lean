import QueryGrammar.Proofs.Finish.Candidates
import QueryGrammar.Proofs.Finish.Tokenize
import QueryGrammar.Proofs.Finish.Trim
/-!
What every call keeps of a draft, the removal of the unused and finishing included. Rules refer to
what is live, an edit stands beside the rule it was made from, and a symbol made for tokens stays in
use and keeps the rule that reads them. Whether attached semantics are live is left open: a rule may
attach one that has been pruned.
-/
namespace QueryGrammar.Draft

/-- The symbol has the rule that reads the tokens, perhaps among others. -/
inductive Holds (d : Draft) : SymbolId → List String → Prop where
  | nothing {id : SymbolId}
      (rule : { expansion := .terminal emptyName .silent } ∈ d.rules id) : Holds d id []
  | token {id : SymbolId} {token : String} (isToken : IsToken token)
      (rule : { expansion := .terminal token .verbatim } ∈ d.rules id) : Holds d id [token]
  | row {id first second : SymbolId} {token : String} {rest : List String}
      (rule : { expansion := .sequence first (some second) .verbatim } ∈ d.rules id)
      (head : Holds d first [token]) (tail : Holds d second rest) : Holds d id (token :: rest)

/-- A rule that refers to what is live and has the costs of its shape. -/
structure FitRule (d : Draft) (r : Rule) : Prop where
  parts : ∀ Y ∈ r.expansion.parts, Y ∈ d.liveSymbols
  term : Splittable r
  category : ∀ c, r.expansion = .placeholder c → c ∈ d.liveEntityCategories
  semantics : ∀ a, r.semantic = some a → ∀ id ∈ a.ids, id.index < d.vocabulary.size
  insertion : r.insertionCost.isSome = true → r.expansion.isLexical = true
  transposition : ∀ first second price excluded,
    r.expansion = .binary first second (some price) excluded → r.edit = none

/-- The edit of a rule of `X`: the rule it was made from is in use, and so is what it inserts. -/
structure FitEdit (d : Draft) (X : SymbolId) (r : Rule) (edit : Edit) : Prop where
  parted : r.expansion.parts ≠ []
  parent : ∃ parent, d.Applies X parent ∧ parent.edit = none ∧ parent.semantic = r.semantic ∧
    r.expansion.parts ⊆ parent.expansion.parts
  tree : ∀ i tree, edit = .insertion i → i.tree = some tree →
    ∀ name ∈ tree.names, ∃ Y, d.Occurs Y ∧ d.symbolName Y = name
  inserted : ∀ i forest, edit = .insertion i → i.semantic = some forest →
    ∀ id ∈ Node.forestIds forest, ∃ Y q a, d.Applies Y q ∧ q.semantic = some a ∧ id ∈ a.ids

structure Consistent (d : Draft) : Prop where
  names : (d.symbols.map (·.name)).Nodup
  startLive : start ∈ d.liveSymbols
  rules : ∀ X, ∀ r ∈ d.rules X, d.FitRule r
  edits : ∀ X, ∀ r ∈ d.rules X, ∀ edit, r.edit = some edit → d.FitEdit X r edit
  made : ∀ (i : Nat) s, d.symbols[i]? = some s → s.name.toList.head? ≠ some '[' →
    d.Occurs ⟨i⟩ ∧
      ∃ tokens, (∀ t ∈ tokens, IsToken t) ∧ s.name = rowName tokens ∧ d.Holds ⟨i⟩ tokens
  definitions : (d.vocabulary.definitions.map (·.name)).Nodup

variable {d e f : Draft}

theorem Holds.mono (h : ∀ X, ∀ r ∈ d.rules X,
    (∀ term text, r.expansion = .terminal term text → Text.wordsOf term = [term]) → r ∈ e.rules X)
    {id : SymbolId} {tokens : List String} (hd : d.Holds id tokens) : e.Holds id tokens := by
  induction hd with
  | nothing hrule =>
    refine .nothing (h _ _ hrule fun term text hx => ?_)
    cases hx
    decide +kernel
  | token htoken hrule =>
    refine .token htoken (h _ _ hrule fun term text hx => ?_)
    cases hx
    exact Text.wordsOf_token htoken.word
  | row hrule _ _ ihhead ihtail => exact .row (h _ _ hrule (by simp)) ihhead ihtail

theorem Holds.live {id : SymbolId} {tokens : List String} (h : d.Holds id tokens) :
    id ∈ d.liveSymbols := by
  cases h with
  | nothing hrule => exact live_of_mem_rules hrule
  | token _ hrule => exact live_of_mem_rules hrule
  | row hrule _ _ => exact live_of_mem_rules hrule

theorem Holds.expands {id : SymbolId} {tokens : List String} (h : d.Holds id tokens) :
    d.Expands id := by
  induction h with
  | nothing hrule =>
    exact Productions.expands_iff.mpr
      ⟨_, hrule, by simp [productions, productionsBy, Expansion.parts]⟩
  | token _ hrule =>
    exact Productions.expands_iff.mpr
      ⟨_, hrule, by simp [productions, productionsBy, Expansion.parts]⟩
  | row hrule _ _ ihhead ihtail =>
    refine Productions.expands_iff.mpr ⟨_, hrule, ?_⟩
    simpa [productions, productionsBy, Expansion.parts] using ⟨ihhead, ihtail⟩

/-! ### Rules that stay in use -/

/-- Rules in use stay in use, or others like them do. -/
structure Carries (d e : Draft) : Prop where
  names : ∀ X, d.Occurs X → e.symbolName X = d.symbolName X
  rules : ∀ X r, d.Applies X r → ∃ q, e.Applies X q ∧ q.edit = r.edit ∧
    q.semantic = r.semantic ∧ r.expansion.parts ⊆ q.expansion.parts

theorem Carries.occurs (h : Carries d e) {X : SymbolId} (hX : d.Occurs X) : e.Occurs X := by
  obtain ⟨r, hr⟩ := hX
  obtain ⟨q, hq, -⟩ := h.rules X r hr
  exact ⟨q, hq⟩

theorem FitEdit.carry {X : SymbolId} {r : Rule} {edit : Edit} (h : d.FitEdit X r edit)
    (hc : Carries d e) : e.FitEdit X r edit where
  parted := h.parted
  parent := by
    obtain ⟨parent, happlies, hedit, hsemantic, hparts⟩ := h.parent
    obtain ⟨q, hq, hqedit, hqsemantic, hqparts⟩ := hc.rules X parent happlies
    exact ⟨q, hq, hqedit.trans hedit, hqsemantic.trans hsemantic,
      fun Y hY => hqparts (hparts hY)⟩
  tree i tree hi htree name hname := by
    obtain ⟨Y, hY, rfl⟩ := h.tree i tree hi htree name hname
    exact ⟨Y, hc.occurs hY, hc.names Y hY⟩
  inserted i forest hi hforest id hid := by
    obtain ⟨Y, q, a, hq, ha, hmem⟩ := h.inserted i forest hi hforest id hid
    obtain ⟨p, hp, -, hsemantic, -⟩ := hc.rules Y q hq
    exact ⟨Y, p, a, hp, hsemantic.trans ha, hmem⟩

/-- A draft with symbols and rules added, whose rules in use remain so. -/
structure Extends (d e : Draft) : Prop extends d.Grows e where
  names : ∀ X ∈ d.liveSymbols, e.symbolName X = d.symbolName X
  rules : ∀ X, d.rules X ⊆ e.rules X

theorem Extends.live (h : Extends d e) {X : SymbolId} (hX : X ∈ d.liveSymbols) :
    X ∈ e.liveSymbols := by
  obtain ⟨s, hs⟩ := mem_liveSymbols_iff.mp hX
  exact mem_liveSymbols_iff.mpr (h.symbols X s hs)

theorem Extends.applies (h : Extends d e) {X : SymbolId} {r : Rule} (hr : d.Applies X r) :
    e.Applies X r := by
  obtain ⟨t, ht, hroot, hmem⟩ := hr
  exact ⟨t, ht.mono (fun _ => rfl) fun Y q hq => h.rules Y hq, hroot, hmem⟩

theorem Extends.carries (h : Extends d e) : Carries d e where
  names X hX := h.names X (live_of_occurs hX)
  rules _ r hr := ⟨r, h.applies hr, rfl, rfl, fun _ hY => hY⟩

theorem FitRule.mono {r : Rule} (h : d.FitRule r) (hg : Extends d e) : e.FitRule r where
  parts Y hY := hg.live (h.parts Y hY)
  term := h.term
  category c hc := by
    obtain ⟨k, hk⟩ := mem_liveEntityCategories_iff.mp (h.category c hc)
    exact mem_liveEntityCategories_iff.mpr ⟨k, hg.categories c k hk⟩
  semantics a ha id hid := Nat.lt_of_lt_of_le (h.semantics a ha id hid) hg.semantics
  insertion := h.insertion
  transposition := h.transposition

/-- Enlarging a draft keeps it consistent when what is added is registered: new symbols have names
in brackets, and new rules are no edits. -/
theorem Consistent.extend (hd : d.Consistent) (h : Extends d e)
    (hnames : (e.symbols.map (·.name)).Nodup)
    (hdefinitions : (e.vocabulary.definitions.map (·.name)).Nodup)
    (hsymbols : ∀ (i : Nat) t, e.symbols[i]? = some t →
      (∃ s, d.symbols[i]? = some s ∧ s.name = t.name) ∨ t.name.toList.head? = some '[')
    (hrules : ∀ X, ∀ r ∈ e.rules X, r ∈ d.rules X ∨ e.FitRule r ∧ r.edit = none) :
    e.Consistent where
  names := hnames
  startLive := h.live hd.startLive
  rules X r hr := by
    rcases hrules X r hr with hr | ⟨hfit, -⟩
    · exact (hd.rules X r hr).mono h
    · exact hfit
  edits X r hr edit hedit := by
    rcases hrules X r hr with hr | ⟨-, hnone⟩
    · exact (hd.edits X r hr edit hedit).carry h.carries
    · simp [hnone] at hedit
  made i t ht hhead := by
    rcases hsymbols i t ht with ⟨s, hs, hname⟩ | hbracket
    · obtain ⟨hoccurs, tokens, htokens, hrow, hholds⟩ := hd.made i s hs (hname ▸ hhead)
      exact ⟨h.carries.occurs hoccurs, tokens, htokens, hname ▸ hrow,
        hholds.mono fun X r hr _ => h.rules X hr⟩
    · exact absurd hbracket hhead
  definitions := hdefinitions

/-! ### Registration -/

theorem SoundRule.fit {r : Rule} (h : d.SoundRule r) : d.FitRule r where
  parts Y hY := mem_liveSymbols_iff.mpr (h.expansion.parts Y hY)
  term term text hx := Or.inl (h.expansion.term term text hx)
  category c hc := mem_liveEntityCategories_iff.mpr (h.expansion.category c hc)
  semantics := h.semantics
  insertion := h.cost
  transposition _ _ _ _ _ := h.unedited

theorem extends_appendSymbol (d : Draft) (s : Symbol) : d.Extends (d.appendSymbol s).2 where
  toGrows := d.grows_appendSymbol s
  names X hX := by
    obtain ⟨t, ht⟩ := mem_liveSymbols_iff.mp hX
    have hlt := (List.getElem?_eq_some_iff.mp (get?_eq_some_iff.mp ht).1).1
    simp [symbolName, appendSymbol, List.getElem?_append_left hlt]
  rules X r hr := by
    have hne : d.rules X ≠ [] := List.ne_nil_of_mem hr
    rw [rules_eq_of_symbols (fun t ht => ?_) hne]
    · exact hr
    · rw [appendSymbol, List.getElem?_append_left (List.getElem?_eq_some_iff.mp ht).1]
      exact ht

/-- A new symbol without rules leaves no symbol with more. -/
theorem rules_appendSymbol_subset {s : Symbol} (hnone : s.rules = []) (X : SymbolId) :
    (d.appendSymbol s).2.rules X ⊆ d.rules X := by
  intro r hr
  obtain ⟨t, ht⟩ := mem_liveSymbols_iff.mp (live_of_mem_rules hr)
  obtain ⟨hget, hlive⟩ := get?_eq_some_iff.mp ht
  rw [rules_of_get? ht] at hr
  rcases Nat.lt_or_ge X.index d.symbols.length with hlt | hge
  · rw [Draft.appendSymbol, List.getElem?_append_left hlt] at hget
    rw [rules_of_get? (get?_eq_some_iff.mpr ⟨hget, hlive⟩)]
    exact hr
  · rw [Draft.appendSymbol, List.getElem?_append_right hge] at hget
    rw [List.mem_singleton.mp (List.mem_of_getElem? hget), hnone] at hr
    exact absurd hr List.not_mem_nil

theorem Consistent.appendSymbol {s : Symbol} (hd : d.Consistent)
    (hname : s.name.toList.head? = some '[') (hfresh : d.isTaken s.name = false)
    (hnone : s.rules = []) : (d.appendSymbol s).2.Consistent := by
  refine hd.extend (d.extends_appendSymbol s) ?_ hd.definitions (fun i t ht => ?_) fun X r hr =>
    Or.inl (rules_appendSymbol_subset hnone X hr)
  · refine nodup_names_concat hd.names fun t ht heq => ?_
    exact List.any_eq_false.mp hfresh t ht (by simpa using heq)
  · rcases Nat.lt_or_ge i d.symbols.length with hlt | hge
    · rw [Draft.appendSymbol, List.getElem?_append_left hlt] at ht
      exact Or.inl ⟨t, ht, rfl⟩
    · rw [Draft.appendSymbol, List.getElem?_append_right hge] at ht
      exact Or.inr (List.mem_singleton.mp (List.mem_of_getElem? ht) ▸ hname)

theorem mem_rules_modifyRules {id : SymbolId} {g : List Rule → List Rule} {X : SymbolId}
    {r : Rule} : r ∈ (d.modifySymbol id fun s => { s with rules := g s.rules }).rules X ↔
      X ∈ d.liveSymbols ∧ r ∈ if id.index = X.index then g (d.rules X) else d.rules X := by
  have hget : (d.modifySymbol id fun s => { s with rules := g s.rules }).get? X =
      (d.get? X).map fun s => if id.index = X.index then { s with rules := g s.rules } else s := by
    have hpruned : ((fun s : Symbol => !s.pruned) ∘ fun s : Symbol =>
        if id.index = X.index then { s with rules := g s.rules } else s) = fun s => !s.pruned := by
      funext s
      by_cases hX : id.index = X.index <;> simp [hX]
    rw [get?, get?, getElem?_modifyRules, Option.filter_map, hpruned]
  cases hs : d.get? X with
  | none => simp [rules, hget, mem_liveSymbols_iff, hs]
  | some s =>
    by_cases hX : id.index = X.index <;> simp [rules, hget, mem_liveSymbols_iff, hs, hX]

theorem Consistent.modifyRules {id : SymbolId} {g : List Rule → List Rule} (hd : d.Consistent)
    (hold : d.rules id ⊆ g (d.rules id))
    (hnew : ∀ r ∈ g (d.rules id), r ∈ d.rules id ∨ d.FitRule r ∧ r.edit = none) :
    (d.modifySymbol id fun s => { s with rules := g s.rules }).Consistent := by
  have hcase : ∀ X : SymbolId, id.index = X.index → X = id := by
    intro X hX
    cases id
    cases X
    exact congrArg SymbolId.mk hX.symm
  have hextends : d.Extends (d.modifySymbol id fun s => { s with rules := g s.rules }) := by
    refine ⟨d.grows_modifySymbol id g, fun X _ => ?_, fun X r hr => ?_⟩
    · rw [symbolName, symbolName, getElem?_modifyRules]
      cases d.symbols[X.index]? with
      | none => rfl
      | some s => by_cases hX : id.index = X.index <;> simp [hX]
    · refine mem_rules_modifyRules.mpr ⟨live_of_mem_rules hr, ?_⟩
      split
      next hX =>
        obtain rfl := hcase X hX
        exact hold hr
      next => exact hr
  refine hd.extend hextends ?_ hd.definitions (fun i t ht => ?_) fun X r hr => ?_
  · rw [names_modifySymbol]
    exact hd.names
  · rw [getElem?_modifyRules] at ht
    obtain ⟨s, hs, heq⟩ := Option.map_eq_some_iff.mp ht
    refine Or.inl ⟨s, hs, ?_⟩
    rw [← heq]
    split <;> rfl
  · have hmem := (mem_rules_modifyRules.mp hr).2
    split at hmem
    next hX =>
      obtain rfl := hcase X hX
      exact (hnew r hmem).imp_right fun h => ⟨h.1.mono hextends, h.2⟩
    next => exact Or.inl hmem

theorem Consistent.appendRule {id : SymbolId} {r : Rule} (hd : d.Consistent) (hr : d.FitRule r)
    (hedit : r.edit = none) : (d.appendRule id r).Consistent := by
  unfold Draft.appendRule
  split
  · refine hd.modifyRules (g := (· ++ [r])) (fun q hq => List.mem_append_left _ hq) fun q hq => ?_
    rcases List.mem_append.mp hq with hq | hq
    · exact Or.inl hq
    · exact Or.inr (List.mem_singleton.mp hq ▸ ⟨hr, hedit⟩)
  · exact hd

theorem Consistent.newSymbolOf {isTermSequence : Bool} {parts : List String} {id : SymbolId}
    (hd : d.Consistent) (h : d.newSymbolOf isTermSequence parts = .ok (id, e)) :
    e.Consistent ∧ d.Grows e ∧ e.rules id = [] := by
  obtain ⟨name, hname, hfresh, heq⟩ := newSymbolOf_eq h
  obtain ⟨rfl, rfl⟩ := Prod.mk.inj heq
  refine ⟨hd.appendSymbol (head_of_symbol hname) hfresh rfl, d.grows_appendSymbol _, ?_⟩
  refine rules_of_get? (s := { name := name, isTermSequence := isTermSequence }) ?_
  exact get?_eq_some_iff.mpr ⟨by simp, rfl⟩

theorem Consistent.addRule {id : SymbolId} {p : Proposal} (hd : d.Consistent)
    (h : d.addRule id p = .ok e) : e.Consistent := by
  obtain ⟨r, hr, h⟩ := Outcome.ok_of_bind h
  cases h
  have hsound := soundRule_of_ruleOf hr
  exact hd.appendRule hsound.fit hsound.unedited

theorem Consistent.addLexical {name : String} {entries : List LexicalEntry}
    {semantic : Option Forest} {id : SymbolId} (hd : d.Consistent)
    (h : d.addLexical name entries semantic = .ok (id, e)) : e.Consistent := by
  obtain ⟨f, rules, hnew, hrules, rfl⟩ := addLexical_eq h
  obtain ⟨hf, hgrows, hnone⟩ := hd.newSymbolOf hnew
  refine hf.modifyRules (g := fun _ => rules) (by simp [hnone]) fun r hr => Or.inr ?_
  exact ⟨((hrules r hr).1.mono hgrows).fit, (hrules r hr).1.unedited⟩

theorem Consistent.newPhrase {name : String} {parts : List SymbolId} {text : DisplayText}
    {semantic : Option Forest} {id : SymbolId} (hd : d.Consistent)
    (h : d.newPhrase name parts text semantic = .ok (id, e)) : e.Consistent := by
  obtain ⟨f, r, hnew, hr, -, rfl⟩ := newPhrase_eq h
  obtain ⟨hf, hgrows, -⟩ := hd.newSymbolOf hnew
  exact hf.appendRule (hr.mono hgrows).fit hr.unedited

theorem Consistent.newSemantic {definition : Semantic} {id : SemanticId} (hd : d.Consistent)
    (h : d.newSemantic definition = .ok (id, e)) : e.Consistent := by
  obtain ⟨hnew, heq⟩ := newSemantic_eq h
  cases heq
  exact hd.extend ⟨d.grows_appendSemantic definition, fun _ _ => rfl, fun _ _ hr => hr⟩ hd.names
    (nodup_names_concat hd.definitions hnew) (fun _ t ht => Or.inl ⟨t, ht, rfl⟩)
    fun _ _ hr => Or.inl hr

theorem Consistent.newEntityCategory {name : String} {instances : List String}
    {id : EntityCategoryId} (hd : d.Consistent)
    (h : d.newEntityCategory name instances = .ok (id, e)) : e.Consistent := by
  obtain ⟨-, heq⟩ := newEntityCategory_eq h
  cases heq
  exact hd.extend ⟨d.grows_appendCategory _, fun _ _ => rfl, fun _ _ hr => hr⟩ hd.names
    hd.definitions (fun _ t ht => Or.inl ⟨t, ht, rfl⟩) fun _ _ hr => Or.inl hr

theorem Consistent.deferStopWords (hd : d.Consistent)
    (pending : List (SymbolId × Option SymbolId)) :
    ({ d with pendingStopWords := pending } : Draft).Consistent :=
  hd.extend ⟨⟨fun _ s hs => ⟨s, hs⟩, Nat.le_refl _, fun _ _ hc => hc⟩, fun _ _ => rfl,
    fun _ _ hr => hr⟩ hd.names hd.definitions (fun _ t ht => Or.inl ⟨t, ht, rfl⟩)
    fun _ _ hr => Or.inl hr

theorem rules_empty (X : SymbolId) : Draft.empty.rules X = [] := by
  rcases X with ⟨_ | i⟩ <;> rfl

theorem consistent_empty : Draft.empty.Consistent where
  names := by decide
  startLive := by decide
  rules X r hr := by simp [rules_empty] at hr
  edits X r hr := by simp [rules_empty] at hr
  made i s hs hhead := by
    obtain ⟨rfl, rfl⟩ : i = 0 ∧ s = { name := startName } := by
      rcases i with _ | i <;> simp_all [Draft.empty]
    exact absurd (by decide) hhead
  definitions := by decide

end QueryGrammar.Draft
