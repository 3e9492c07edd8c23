import QueryGrammar.Proofs.Draft.Lexical
import QueryGrammar.Proofs.Semantic.Compose
/-!
What registration keeps of a draft: names are written in brackets and never repeated, nothing is
pruned, and every rule refers to what is registered.
-/
namespace QueryGrammar

/-- An insertion cost that the rule has passes for a cost. -/
def Rule.Priced (r : Rule) : Prop :=
  ∀ cost, r.insertionCost = some cost → Vocabulary.isCost cost = true

namespace Draft

/-- An expansion into live symbols, with a term in normal form or a registered category. -/
structure SoundExpansion (d : Draft) (e : Expansion) : Prop where
  parts : ∀ part ∈ e.parts, ∃ s, d.get? part = some s
  term : ∀ term text, e = .terminal term text → Name.IsTerm term
  category : ∀ c, e = .placeholder c → ∃ k, d.entityCategory? c = some k

/-- A rule as registration makes it. -/
structure SoundRule (d : Draft) (r : Rule) : Prop where
  expansion : d.SoundExpansion r.expansion
  semantics : ∀ a, r.semantic = some a → ∀ id ∈ a.ids, id.index < d.vocabulary.size
  cost : r.insertionCost.isSome = true → r.expansion.isLexical = true
  unedited : r.edit = none

structure Sound (d : Draft) : Prop where
  names : (d.symbols.map (·.name)).Nodup
  bracketed : ∀ s ∈ d.symbols, s.name.toList.head? = some '['
  unpruned : ∀ s ∈ d.symbols, s.pruned = false
  rules : ∀ s ∈ d.symbols, ∀ r ∈ s.rules, d.SoundRule r
  definitions : (d.vocabulary.definitions.map (·.name)).Nodup
  semantics : d.prunedSemantics = []
  categories : (d.entityCategories.map (·.name)).Nodup
  unprunedCategories : ∀ c ∈ d.entityCategories, c.pruned = false

/-- What is registered stays registered. -/
structure Grows (d e : Draft) : Prop where
  symbols : ∀ id s, d.get? id = some s → ∃ t, e.get? id = some t
  semantics : d.vocabulary.size ≤ e.vocabulary.size
  categories : ∀ id c, d.entityCategory? id = some c → e.entityCategory? id = some c

variable {d e : Draft}

theorem Sound.mem_liveSymbols (h : d.Sound) {X : SymbolId} (hX : X.index < d.symbols.length) :
    X ∈ d.liveSymbols :=
  mem_liveSymbols_iff.mpr ⟨d.symbols[X.index], get?_eq_some_iff.mpr
    ⟨List.getElem?_eq_getElem hX, h.unpruned _ (List.getElem_mem hX)⟩⟩

theorem SoundExpansion.mono {x : Expansion} (h : d.SoundExpansion x) (hg : d.Grows e) :
    e.SoundExpansion x where
  parts part hp := by
    obtain ⟨s, hs⟩ := h.parts part hp
    exact hg.symbols part s hs
  term := h.term
  category c hc := by
    obtain ⟨k, hk⟩ := h.category c hc
    exact ⟨k, hg.categories c k hk⟩

theorem SoundRule.mono {r : Rule} (h : d.SoundRule r) (hg : d.Grows e) : e.SoundRule r where
  expansion := h.expansion.mono hg
  semantics a ha id hid := Nat.lt_of_lt_of_le (h.semantics a ha id hid) hg.semantics
  cost := h.cost
  unedited := h.unedited

theorem sound_empty : Draft.empty.Sound where
  names := by decide
  bracketed := by decide
  unpruned := by decide
  rules := by simp [Draft.empty]
  definitions := by decide
  semantics := rfl
  categories := by decide
  unprunedCategories := by decide

/-! ### The parts of a registration -/

theorem isCost_of_check {owner : String} {cost : Float} (h : checkRuleCost owner cost = .ok ()) :
    Vocabulary.isCost cost = true := by
  unfold checkRuleCost at h
  split at h
  · assumption
  · simp at h

/-- What an accepted expansion over symbols is: its parts are live, the closed positions are among
them, and a cost of exchange was checked. -/
theorem symbolExpansion_eq {owner : String} {p : Proposal} {ids : List SymbolId} {x : Expansion}
    (h : d.symbolExpansion owner p ids = .ok x) :
    (∀ id ∈ ids, ∃ s, d.get? id = some s) ∧ (∀ i ∈ p.noInsertion, i < ids.length) ∧
      ((∃ part, ids = [part] ∧ x = .unary part (!p.noInsertion.isEmpty)) ∨
        ∃ first second, ids = [first, second] ∧
          (∀ cost, p.transpositionCost = some cost → Vocabulary.isCost cost = true) ∧
          x = .binary first second p.transpositionCost
            ⟨p.noInsertion.contains 0, p.noInsertion.contains 1⟩) := by
  unfold symbolExpansion at h
  simp only [Outcome.bind_eq_ok_iff, Outcome.guard_eq_ok_iff] at h
  obtain ⟨_, hlive, hlength, _, hindexes, h⟩ := h
  have hparts : ∀ id ∈ ids, ∃ s, d.get? id = some s := by
    intro id hid
    have hok := Outcome.forM_eq_ok_iff.mp hlive id hid
    cases hs : d.live id with
    | error _ => simp [hs, discard, Functor.discard, Functor.mapConst, Except.map] at hok
    | ok s => exact ⟨s, get?_of_live hs⟩
  have hclosed : ∀ i ∈ p.noInsertion, i < ids.length := by
    intro i hi
    have hok := Outcome.forM_eq_ok_iff.mp hindexes i hi
    by_contra hge
    simp [Nat.not_lt.mp hge, throw, throwThe, MonadExceptOf.throw] at hok
  refine ⟨hparts, hclosed, ?_⟩
  split at h
  next first second =>
    simp only [Outcome.bind_eq_ok_iff] at h
    obtain ⟨_, hchecked, h⟩ := h
    cases h
    refine Or.inr ⟨first, second, rfl, ?_, rfl⟩
    intro cost hcost
    rw [hcost] at hchecked
    exact isCost_of_check hchecked
  next first rest hnot =>
    simp only [Outcome.guard_eq_ok_iff] at h
    obtain ⟨-, h⟩ := h
    cases h
    rcases rest with _ | ⟨second, _ | ⟨third, rest⟩⟩
    · exact Or.inl ⟨first, rfl, rfl⟩
    · exact (hnot second rfl).elim
    · simp at hlength
  next => cases h

theorem soundExpansion_of_symbols {owner : String} {p : Proposal} {ids : List SymbolId}
    {x : Expansion} (h : d.symbolExpansion owner p ids = .ok x) : d.SoundExpansion x := by
  obtain ⟨hparts, -, ⟨part, rfl, rfl⟩ | ⟨first, second, rfl, -, rfl⟩⟩ := symbolExpansion_eq h
  · exact ⟨hparts, by simp, by simp⟩
  · exact ⟨hparts, by simp, by simp⟩

theorem soundExpansion_of_sequence {owner : String} {ids : List SymbolId} {text : DisplayText}
    {x : Expansion} (h : d.sequenceExpansion owner ids text = .ok x) : d.SoundExpansion x := by
  obtain ⟨hparts, first, second, rfl, rfl⟩ := sequenceExpansion_eq_ok_iff.mp h
  refine ⟨?_, by simp, by simp⟩
  intro part hpart
  obtain ⟨s, hs, -⟩ := hparts part hpart
  exact ⟨s, hs⟩

theorem soundExpansion_of_expansionOf {owner : String} {p : Proposal} {x : Expansion}
    (h : d.expansionOf owner p = .ok x) : d.SoundExpansion x := by
  unfold expansionOf at h
  split at h
  next => exact soundExpansion_of_symbols h
  next =>
    obtain ⟨ids, -, h⟩ := Outcome.ok_of_bind h
    exact soundExpansion_of_symbols h
  next term text _ =>
    simp only [Outcome.bind_eq_ok_iff] at h
    obtain ⟨_, -, t, ht, h⟩ := h
    cases h
    refine ⟨by simp [Expansion.parts], fun term text heq => ?_, by simp⟩
    cases heq
    exact Name.isTerm_of_checkedTerm ht
  next =>
    obtain ⟨_, -, h⟩ := Outcome.ok_of_bind h
    exact soundExpansion_of_sequence h
  next category _ =>
    simp only [Outcome.bind_eq_ok_iff, Outcome.guard_eq_ok_iff] at h
    obtain ⟨_, -, hlive, h⟩ := h
    cases h
    refine ⟨by simp [Expansion.parts], by simp, fun c hc => ?_⟩
    cases hc
    exact Option.ne_none_iff_exists'.mp (by simpa using hlive)

theorem lt_size_of_get? {v : Vocabulary} {id : SemanticId} {definition : Semantic}
    (h : v.get? id = some definition) : id.index < v.size :=
  (List.getElem?_eq_some_iff.mp h).1

theorem registered_of_checkSemantics {ids : List SemanticId} (h : d.checkSemantics ids = .ok ()) :
    ∀ id ∈ ids, id.index < d.vocabulary.size := by
  intro id hid
  obtain ⟨k, hk, hindex⟩ := Keyed.exists_mem_distinct SemanticId.index hid
  have hok := Outcome.forM_eq_ok_iff.mp h k hk
  rw [← hindex]
  cases hv : d.vocabulary.get? k with
  | none =>
    simp [Vocabulary.definition, hv, discard, Functor.discard, Functor.mapConst, Except.map] at hok
  | some _ => exact lt_size_of_get? hv

theorem soundRule_of_ruleOf {id : SymbolId} {p : Proposal} {r : Rule} (h : d.ruleOf id p = .ok r) :
    d.SoundRule r := by
  unfold ruleOf at h
  simp only [Outcome.bind_eq_ok_iff, Outcome.guard_eq_ok_iff] at h
  obtain ⟨owner, -, x, hx, -, _, hcost, _, hsemantic, h⟩ := h
  cases h
  refine ⟨soundExpansion_of_expansionOf hx, fun a ha => ?_, fun hc => ?_, rfl⟩
  · rw [show p.semantic = some a from ha] at hsemantic
    obtain ⟨_, hcheck, -⟩ := Outcome.ok_of_bind hsemantic
    exact registered_of_checkSemantics hcheck
  · obtain ⟨cost, hc⟩ := Option.isSome_iff_exists.mp hc
    rw [show p.insertionCost = some cost from hc] at hcost
    obtain ⟨_, -, hlexical⟩ := Outcome.ok_of_bind hcost
    by_contra hx
    simp [show x.isLexical = false by simpa using hx, throw, throwThe, MonadExceptOf.throw]
      at hlexical

theorem priced_of_ruleOf {id : SymbolId} {p : Proposal} {r : Rule} (h : d.ruleOf id p = .ok r) :
    r.Priced := by
  unfold ruleOf at h
  simp only [Outcome.bind_eq_ok_iff, Outcome.guard_eq_ok_iff] at h
  obtain ⟨owner, -, x, -, -, _, hcost, _, -, h⟩ := h
  cases h
  intro cost hc
  rw [show p.insertionCost = some cost from hc] at hcost
  obtain ⟨_, hcheck, -⟩ := Outcome.ok_of_bind hcost
  exact isCost_of_check hcheck

/-! ### Enlarging a draft -/

theorem Grows.refl (d : Draft) : d.Grows d :=
  ⟨fun _ s h => ⟨s, h⟩, Nat.le_refl _, fun _ _ h => h⟩

theorem grows_appendSymbol (d : Draft) (s : Symbol) : d.Grows (d.appendSymbol s).2 where
  symbols _ t h := ⟨t, get?_appendSymbol h⟩
  semantics := Nat.le_refl _
  categories _ _ h := h

theorem getElem?_modifyRules (d : Draft) (id : SymbolId) (f : List Rule → List Rule) (i : Nat) :
    (d.modifySymbol id fun s => { s with rules := f s.rules }).symbols[i]? =
      d.symbols[i]?.map fun s => if id.index = i then { s with rules := f s.rules } else s := by
  rw [modifySymbol, List.getElem?_modify]
  by_cases hi : id.index = i <;> simp [hi]

theorem grows_modifySymbol (d : Draft) (id : SymbolId) (f : List Rule → List Rule) :
    d.Grows (d.modifySymbol id fun s => { s with rules := f s.rules }) where
  symbols x t h := by
    rw [get?_eq_some_iff] at h
    by_cases hx : id.index = x.index
    · refine ⟨{ t with rules := f t.rules }, get?_eq_some_iff.mpr ⟨?_, h.2⟩⟩
      simp [modifySymbol, h.1, hx]
    · refine ⟨t, get?_eq_some_iff.mpr ⟨?_, h.2⟩⟩
      simp [modifySymbol, h.1, hx]
  semantics := Nat.le_refl _
  categories _ _ h := h

theorem names_modifySymbol (d : Draft) (id : SymbolId) (f : List Rule → List Rule) :
    (d.modifySymbol id fun s => { s with rules := f s.rules }).symbols.map (·.name) =
      d.symbols.map (·.name) := by
  apply List.ext_getElem?
  intro i
  simp only [modifySymbol, List.getElem?_map, List.getElem?_modify]
  cases d.symbols[i]? with
  | none => rfl
  | some s => by_cases hi : id.index = i <;> simp [hi]

theorem names_appendRule (d : Draft) (id : SymbolId) (r : Rule) :
    (d.appendRule id r).symbols.map (·.name) = d.symbols.map (·.name) := by
  unfold appendRule
  split
  · exact d.names_modifySymbol id (· ++ [r])
  · rfl

/-- A name that no item has is appended without repetition. -/
theorem nodup_names_concat {α : Type} {name : α → String} {items : List α} {x : α}
    (h : (items.map name).Nodup) (hnew : ∀ y ∈ items, name y ≠ name x) :
    ((items ++ [x]).map name).Nodup := by
  rw [List.map_append]
  refine List.nodup_append.mpr ⟨h, by simp, fun a ha b hb => ?_⟩
  obtain ⟨y, hy, rfl⟩ := List.mem_map.mp ha
  exact List.mem_singleton.mp hb ▸ hnew y hy

theorem Sound.appendSymbol {s : Symbol} (h : d.Sound) (hname : s.name.toList.head? = some '[')
    (hfresh : d.isTaken s.name = false) (hlive : s.pruned = false)
    (hrules : ∀ r ∈ s.rules, d.SoundRule r) : (d.appendSymbol s).2.Sound where
  names := by
    refine nodup_names_concat h.names fun t ht heq => ?_
    exact List.any_eq_false.mp hfresh t ht (by simpa using heq)
  bracketed t ht := by
    rcases List.mem_append.mp ht with ht | ht
    · exact h.bracketed t ht
    · exact List.mem_singleton.mp ht ▸ hname
  unpruned t ht := by
    rcases List.mem_append.mp ht with ht | ht
    · exact h.unpruned t ht
    · exact List.mem_singleton.mp ht ▸ hlive
  rules t ht r hr := by
    refine SoundRule.mono ?_ (d.grows_appendSymbol s)
    rcases List.mem_append.mp ht with ht | ht
    · exact h.rules t ht r hr
    · exact hrules r (List.mem_singleton.mp ht ▸ hr)
  definitions := h.definitions
  semantics := h.semantics
  categories := h.categories
  unprunedCategories := h.unprunedCategories

theorem Sound.modifySymbol {id : SymbolId} {f : List Rule → List Rule} (h : d.Sound)
    (hf : ∀ rules, ∀ r ∈ f rules, r ∈ rules ∨ d.SoundRule r) :
    (d.modifySymbol id fun s => { s with rules := f s.rules }).Sound := by
  have hmem : ∀ t ∈ (d.modifySymbol id fun s => { s with rules := f s.rules }).symbols,
      ∃ s ∈ d.symbols, t.name = s.name ∧ t.pruned = s.pruned ∧
        ∀ r ∈ t.rules, r ∈ s.rules ∨ d.SoundRule r := by
    intro t ht
    obtain ⟨i, hi⟩ := List.getElem?_of_mem ht
    simp only [Draft.modifySymbol, List.getElem?_modify, Option.map_eq_map,
      Option.map_eq_some_iff] at hi
    obtain ⟨s, hs, rfl⟩ := hi
    refine ⟨s, List.mem_of_getElem? hs, ?_⟩
    split
    · exact ⟨rfl, rfl, hf s.rules⟩
    · exact ⟨rfl, rfl, fun r hr => Or.inl hr⟩
  constructor
  · rw [names_modifySymbol]
    exact h.names
  · intro t ht
    obtain ⟨s, hs, hname, -⟩ := hmem t ht
    exact hname ▸ h.bracketed s hs
  · intro t ht
    obtain ⟨s, hs, -, hpruned, -⟩ := hmem t ht
    exact hpruned ▸ h.unpruned s hs
  · intro t ht r hr
    obtain ⟨s, hs, -, -, hrules⟩ := hmem t ht
    refine SoundRule.mono ?_ (d.grows_modifySymbol id f)
    exact (hrules r hr).elim (h.rules s hs r) fun hr => hr
  · exact h.definitions
  · exact h.semantics
  · exact h.categories
  · exact h.unprunedCategories

theorem Sound.appendRule {id : SymbolId} {r : Rule} (h : d.Sound) (hr : d.SoundRule r) :
    (d.appendRule id r).Sound := by
  unfold Draft.appendRule
  split
  · refine h.modifySymbol (f := (· ++ [r])) fun rules q hq => ?_
    rcases List.mem_append.mp hq with hq | hq
    · exact Or.inl hq
    · exact Or.inr (List.mem_singleton.mp hq ▸ hr)
  · exact h

/-! ### Registration calls -/

theorem head_of_symbol {parts : List String} {name : String} (h : Name.symbol parts = .ok name) :
    name.toList.head? = some '[' := by
  unfold Name.symbol at h
  simp only [Outcome.bind_eq_ok_iff, Outcome.guard_eq_ok_iff] at h
  obtain ⟨-, _, -, h⟩ := h
  cases h
  simp

theorem Sound.newSymbolOf {isTermSequence : Bool} {parts : List String} {id : SymbolId}
    (hd : d.Sound) (h : d.newSymbolOf isTermSequence parts = .ok (id, e)) :
    e.Sound ∧ d.Grows e := by
  obtain ⟨name, hname, hfresh, heq⟩ := newSymbolOf_eq h
  obtain ⟨rfl, rfl⟩ := Prod.mk.inj heq
  exact ⟨hd.appendSymbol (head_of_symbol hname) hfresh rfl (by simp), d.grows_appendSymbol _⟩

theorem Sound.addRule {id : SymbolId} {p : Proposal} (hd : d.Sound) (h : d.addRule id p = .ok e) :
    e.Sound := by
  obtain ⟨r, hr, h⟩ := Outcome.ok_of_bind h
  cases h
  exact hd.appendRule (soundRule_of_ruleOf hr)

theorem soundRule_toRule {semantic : Option Forest} {x : LexicalEntry} (hx : x.Passed)
    (hs : ∀ id ∈ Node.forestIds (semantic.getD []), id.index < d.vocabulary.size) :
    d.SoundRule (x.toRule semantic) where
  expansion := by
    refine ⟨by simp [LexicalEntry.toRule, Expansion.parts], fun term text h => ?_,
      by simp [LexicalEntry.toRule]⟩
    cases h
    exact Name.isTerm_of_checkedTerm hx.term
  semantics a ha id hid := by
    obtain ⟨forest, hf, rfl⟩ := Option.map_eq_some_iff.mp ha
    exact hs id (by simpa [hf, Attachment.ids] using hid)
  cost _ := rfl
  unedited := rfl

/-- A new lexical symbol has its rules in place of none, and they are sound before it is there. -/
theorem addLexical_eq {name : String} {entries : List LexicalEntry} {semantic : Option Forest}
    {id : SymbolId} (h : d.addLexical name entries semantic = .ok (id, e)) :
    ∃ f rules, d.newSymbolOf true [name] = .ok (id, f) ∧
      (∀ r ∈ rules, d.SoundRule r ∧ r.Priced) ∧
      e = f.modifySymbol id fun s => { s with rules := rules } := by
  obtain ⟨kept, f, hcheck, hnew, rfl⟩ := addLexical_eq_ok_iff.mp h
  obtain ⟨hkept, -, hsemantic⟩ := passed_of_checkLexical hcheck
  refine ⟨f, _, hnew, fun r hr => ?_, rfl⟩
  obtain ⟨entry, hentry, rfl⟩ := List.mem_map.mp hr
  exact ⟨soundRule_toRule (hkept entry hentry) (registered_of_checkSemantics hsemantic),
    (hkept entry hentry).cost⟩

theorem Sound.addLexical {name : String} {entries : List LexicalEntry} {semantic : Option Forest}
    {id : SymbolId} (hd : d.Sound) (h : d.addLexical name entries semantic = .ok (id, e)) :
    e.Sound := by
  obtain ⟨f, rules, hnew, hrules, rfl⟩ := addLexical_eq h
  obtain ⟨hf, hgrows⟩ := hd.newSymbolOf hnew
  exact hf.modifySymbol (f := fun _ => rules) fun _ r hr => Or.inr ((hrules r hr).1.mono hgrows)

/-- A new phrase is a new symbol with one rule, which is sound before the symbol is there. -/
theorem newPhrase_eq {name : String} {parts : List SymbolId} {text : DisplayText}
    {semantic : Option Forest} {id : SymbolId}
    (h : d.newPhrase name parts text semantic = .ok (id, e)) :
    ∃ f r, d.newSymbolOf true [name] = .ok (id, f) ∧ d.SoundRule r ∧ r.Priced ∧
      e = f.appendRule id r := by
  obtain ⟨owner, x, f, hsequence, hsemantic, hnew, rfl⟩ := rule_of_newPhrase h
  refine ⟨f, _, hnew, ⟨soundExpansion_of_sequence hsequence, fun a ha id hid => ?_, by simp, rfl⟩,
    by simp [Rule.Priced], rfl⟩
  obtain ⟨forest, hforest, rfl⟩ := Option.map_eq_some_iff.mp ha
  exact registered_of_checkSemantics hsemantic id (by simpa [hforest, Attachment.ids] using hid)

theorem Sound.newPhrase {name : String} {parts : List SymbolId} {text : DisplayText}
    {semantic : Option Forest} {id : SymbolId} (hd : d.Sound)
    (h : d.newPhrase name parts text semantic = .ok (id, e)) : e.Sound := by
  obtain ⟨f, r, hnew, hr, -, rfl⟩ := newPhrase_eq h
  obtain ⟨hf, hgrows⟩ := hd.newSymbolOf hnew
  exact hf.appendRule (hr.mono hgrows)

/-- A new semantic has a name of its own and the next number. -/
theorem newSemantic_eq {definition : Semantic} {id : SemanticId}
    (h : d.newSemantic definition = .ok (id, e)) :
    (∀ k ∈ d.vocabulary.definitions, k.name ≠ definition.name) ∧
      (id, e) = (⟨d.vocabulary.size⟩,
        { d with vocabulary := ⟨d.vocabulary.definitions ++ [definition]⟩ }) := by
  obtain ⟨⟨x, v⟩, hregister, heq⟩ := Outcome.ok_of_bind h
  obtain ⟨-, hfresh, -, rfl, rfl⟩ := Vocabulary.register_eq hregister
  cases heq
  exact ⟨hfresh, rfl⟩

theorem grows_appendSemantic (d : Draft) (definition : Semantic) :
    d.Grows { d with vocabulary := ⟨d.vocabulary.definitions ++ [definition]⟩ } where
  symbols _ s hs := ⟨s, hs⟩
  semantics := by simp [Vocabulary.size]
  categories _ _ hc := hc

theorem Sound.newSemantic {definition : Semantic} {id : SemanticId} (hd : d.Sound)
    (h : d.newSemantic definition = .ok (id, e)) : e.Sound := by
  obtain ⟨hnew, heq⟩ := newSemantic_eq h
  cases heq
  exact { hd with
    rules := fun s hs r hr => (hd.rules s hs r hr).mono (d.grows_appendSemantic definition)
    definitions := nodup_names_concat hd.definitions hnew }

/-- A new entity category has a name of its own and the next number. -/
theorem newEntityCategory_eq {name : String} {instances : List String} {id : EntityCategoryId}
    (h : d.newEntityCategory name instances = .ok (id, e)) :
    (∀ c ∈ d.entityCategories, c.name ≠ name) ∧
      (id, e) = (⟨d.entityCategories.length⟩,
        { d with entityCategories := d.entityCategories ++
          [{ name := name
             instances := Keyed.distinct (fun x : String => x)
               ((instances.map Name.normalizeTerm).filter fun term => !term.isEmpty) }] }) := by
  unfold Draft.newEntityCategory at h
  simp only [Outcome.bind_eq_ok_iff, Outcome.guard_eq_ok_iff] at h
  obtain ⟨_, -, hfresh, h⟩ := h
  cases h
  exact ⟨by simpa using hfresh, rfl⟩

theorem grows_appendCategory (d : Draft) (c : EntityCategory) :
    d.Grows { d with entityCategories := d.entityCategories ++ [c] } where
  symbols _ s hs := ⟨s, hs⟩
  semantics := Nat.le_refl _
  categories id k hk := by
    obtain ⟨hget, hlive⟩ := Option.filter_eq_some_iff.mp hk
    refine Option.filter_eq_some_iff.mpr ⟨?_, hlive⟩
    exact (List.getElem?_append_left (List.getElem?_eq_some_iff.mp hget).1).trans hget

theorem Sound.newEntityCategory {name : String} {instances : List String} {id : EntityCategoryId}
    (hd : d.Sound) (h : d.newEntityCategory name instances = .ok (id, e)) : e.Sound := by
  obtain ⟨hnew, heq⟩ := newEntityCategory_eq h
  cases heq
  refine { hd with
    rules := fun s hs r hr => (hd.rules s hs r hr).mono (d.grows_appendCategory _)
    categories := nodup_names_concat hd.categories hnew
    unprunedCategories := fun c hc => ?_ }
  rcases List.mem_append.mp hc with hc | hc
  · exact hd.unprunedCategories c hc
  · exact List.mem_singleton.mp hc ▸ rfl

theorem Sound.deferStopWords (hd : d.Sound) (pending : List (SymbolId × Option SymbolId)) :
    ({ d with pendingStopWords := pending } : Draft).Sound :=
  { hd with
    rules := fun s hs r hr =>
      (hd.rules s hs r hr).mono ⟨fun _ s hs => ⟨s, hs⟩, Nat.le_refl _, fun _ _ hc => hc⟩ }

end Draft

end QueryGrammar
