import QueryGrammar.Draft.Lexical
import QueryGrammar.Proofs.Change
import QueryGrammar.Proofs.Draft.Lookup
import QueryGrammar.Proofs.Text.Words
/-!
What the registration of a lexical symbol does. Its rules are added after the symbol is there, each
in a call that checks it again, but none of these calls is refused: a checked term is accepted
again, costs and semantics were checked before, and no two of the rules are equal.
-/
namespace QueryGrammar

theorem Change.accepted_eq_ok_iff {σ α : Type} {x : Change σ α} {s t : σ} {a : α} :
    x.accepted s = .ok (a, t) ↔ x.perform s = (.ok a, t) := by
  unfold Change.accepted
  cases x.perform s with
  | mk outcome u => cases outcome <;> simp [Except.map]

namespace LexicalEntry

/-- The rule that an entry gets. -/
def toRule (semantic : Option Forest) (entry : LexicalEntry) : Rule where
  expansion := .terminal entry.term entry.text
  semantic := semantic.map .fixed
  features := entry.features
  insertionCost := entry.insertionCost

/-- An entry that passed the checks of a lexical symbol. -/
structure Passed (entry : LexicalEntry) : Prop where
  term : Name.checkedTerm entry.term = .ok entry.term
  cost : ∀ cost, entry.insertionCost = some cost → Vocabulary.isCost cost = true

theorem isCost_of_checkCost {symbol : String} {entry : LexicalEntry}
    (h : entry.checkCost symbol = .ok ()) {cost : Float} (hcost : entry.insertionCost = some cost) :
    Vocabulary.isCost cost = true := by
  unfold checkCost at h
  rw [hcost] at h
  by_contra hfails
  simp [Option.forM, hfails] at h

theorem mem_of_mem_firstOccurrences {seen : List String} {entries : List LexicalEntry}
    {x : LexicalEntry} (h : x ∈ firstOccurrences seen entries) : x ∈ entries := by
  induction entries generalizing seen with
  | nil => simp [firstOccurrences] at h
  | cons y ys ih =>
    unfold firstOccurrences at h
    split at h
    · exact List.mem_cons_of_mem _ (ih h)
    · rcases List.mem_cons.mp h with rfl | h
      · simp
      · exact List.mem_cons_of_mem _ (ih h)

theorem notMem_seen_of_mem_firstOccurrences {seen : List String} {entries : List LexicalEntry}
    {x : LexicalEntry} (h : x ∈ firstOccurrences seen entries) : x.term ∉ seen := by
  induction entries generalizing seen with
  | nil => simp [firstOccurrences] at h
  | cons y ys ih =>
    unfold firstOccurrences at h
    split at h
    next => exact ih h
    next hfresh =>
      rcases List.mem_cons.mp h with rfl | h
      · simp only [Bool.or_eq_true, List.contains_iff_mem, not_or] at hfresh
        exact hfresh.2
      · exact fun hmem => ih h (List.mem_cons_of_mem _ hmem)

/-- Of the entries with one term only the first is kept. -/
theorem nodup_terms_firstOccurrences (seen : List String) (entries : List LexicalEntry) :
    ((firstOccurrences seen entries).map (·.term)).Nodup := by
  induction entries generalizing seen with
  | nil => exact List.nodup_nil
  | cons y ys ih =>
    unfold firstOccurrences
    split
    · exact ih seen
    · rw [List.map_cons, List.nodup_cons]
      refine ⟨fun hmem => ?_, ih _⟩
      obtain ⟨x, hx, heq⟩ := List.mem_map.mp hmem
      exact notMem_seen_of_mem_firstOccurrences hx (heq ▸ List.mem_cons_self)

theorem checkedTerm_of_mem_normalized {entries normal : List LexicalEntry}
    (h : normalized entries = .ok normal) {x : LexicalEntry} (hx : x ∈ normal) :
    ∃ text, Name.checkedTerm text = .ok x.term := by
  obtain ⟨y, -, hy⟩ := Outcome.exists_of_mem_mapM h x hx
  obtain ⟨term, hterm, hy⟩ := Outcome.ok_of_bind hy
  cases hy
  exact ⟨y.term, hterm⟩

end LexicalEntry

namespace Draft

variable {d e f : Draft} {name : String} {entries kept : List LexicalEntry} {parts : List SymbolId}
  {semantic : Option Forest} {id : SymbolId}

/-- A new symbol has the next number and no rules. -/
theorem newSymbolOf_eq {isTermSequence : Bool} {parts : List String}
    (h : d.newSymbolOf isTermSequence parts = .ok (id, f)) :
    ∃ name, Name.symbol parts = .ok name ∧ d.isTaken name = false ∧
      (id, f) = d.appendSymbol { name := name, isTermSequence := isTermSequence } := by
  unfold newSymbolOf at h
  simp only [Outcome.bind_eq_ok_iff, Outcome.guard_eq_ok_iff] at h
  obtain ⟨name, hname, hfresh, h⟩ := h
  exact ⟨name, hname, by simpa using hfresh, (Except.ok.inj h).symm⟩

theorem get?_of_newSymbolOf {isTermSequence : Bool} {parts : List String}
    (h : d.newSymbolOf isTermSequence parts = .ok (id, f)) :
    ∃ name, f.get? id = some { name := name, isTermSequence := isTermSequence } := by
  obtain ⟨name, -, -, heq⟩ := newSymbolOf_eq h
  obtain ⟨rfl, rfl⟩ := Prod.mk.inj heq
  exact ⟨name, get?_eq_some_iff.mpr ⟨by simp, rfl⟩⟩

theorem checkSemantics_of_newSymbolOf {isTermSequence : Bool} {parts : List String}
    (h : d.newSymbolOf isTermSequence parts = .ok (id, f)) (ids : List SemanticId) :
    f.checkSemantics ids = d.checkSemantics ids := by
  obtain ⟨name, -, -, heq⟩ := newSymbolOf_eq h
  obtain ⟨rfl, rfl⟩ := Prod.mk.inj heq
  rfl

theorem get?_appendSymbol {s t : Symbol} (h : d.get? id = some t) :
    (d.appendSymbol s).2.get? id = some t := by
  rw [get?_eq_some_iff] at h ⊢
  rw [appendSymbol, List.getElem?_append_left (List.getElem?_eq_some_iff.mp h.1).1]
  exact h

theorem get?_appendSymbol_self (d : Draft) {s : Symbol} (h : s.pruned = false) :
    (d.appendSymbol s).2.get? (d.appendSymbol s).1 = some s :=
  get?_eq_some_iff.mpr ⟨by simp [appendSymbol], h⟩

theorem modifySymbol_appendSymbol (d : Draft) (s : Symbol) (f : Symbol → Symbol) :
    (d.appendSymbol s).2.modifySymbol ⟨d.symbols.length⟩ f = (d.appendSymbol (f s)).2 :=
  congrArg (fun symbols => { d with symbols := symbols })
    (List.modifyTailIdx_add (List.modifyHead f) 0 d.symbols [s])

theorem get?_of_live {s : Symbol} (h : d.live id = .ok s) : d.get? id = some s := by
  unfold live at h
  split at h
  next t ht => exact ht.trans (congrArg some (Except.ok.inj h))
  next => simp at h

/-! ### The rules of a new symbol -/

theorem checkRuleCost_of_isCost {owner : String} {cost : Float}
    (h : Vocabulary.isCost cost = true) : checkRuleCost owner cost = .ok () := by
  simp [checkRuleCost, h]

/-- The semantics of a lexical rule pass if they did before the symbol was there. -/
theorem checkAttachment_fixed {owner : String} {expansion : Expansion}
    (h : d.checkSemantics (Node.forestIds (semantic.getD [])) = .ok ()) :
    (semantic.map Attachment.fixed).forM (d.checkAttachment owner expansion) = .ok () := by
  cases semantic with
  | none => rfl
  | some forest =>
    have hcheck : d.checkSemantics (Attachment.fixed forest).ids = .ok () := h
    simp only [Option.map_some, Option.forM, checkAttachment, hcheck]
    rfl

theorem ruleOf_toProposal {owner : Symbol} {entry : LexicalEntry}
    (howner : d.get? id = some owner) (hentry : entry.Passed)
    (hsemantic : d.checkSemantics (Node.forestIds (semantic.getD [])) = .ok ()) :
    d.ruleOf id (entry.toProposal semantic) = .ok (entry.toRule semantic) := by
  have hlive : d.live id = .ok owner := by simp [live, howner]
  have hexpansion : d.expansionOf owner.name (entry.toProposal semantic) =
      .ok (.terminal entry.term entry.text) := by
    simp only [expansionOf, LexicalEntry.toProposal, hentry.term]
    rfl
  have hcost : (entry.toProposal semantic).insertionCost.forM
      (checkInsertionCost owner.name (.terminal entry.term entry.text)) = .ok () := by
    cases hc : entry.insertionCost with
    | none => simp [LexicalEntry.toProposal, hc, Option.forM, pure, Except.pure]
    | some cost =>
      simp only [LexicalEntry.toProposal, hc, Option.forM, checkInsertionCost,
        checkRuleCost_of_isCost (hentry.cost cost hc)]
      rfl
  have hattached : (entry.toProposal semantic).semantic.forM
      (d.checkAttachment owner.name (.terminal entry.term entry.text)) = .ok () :=
    checkAttachment_fixed hsemantic
  simp only [ruleOf, hlive, hexpansion, hcost, hattached, bind, Except.bind, Expansion.isLexical,
    Bool.not_true, Bool.and_false, Bool.false_eq_true, if_false]
  rfl

/-- Comparing finds no rule with a term of its own. -/
theorem lacks_toRule {entry : LexicalEntry}
    (h : ∀ r ∈ d.rules id, ∀ shown, r.expansion ≠ .terminal entry.term shown) :
    d.lacks id (entry.toRule semantic) = true := by
  rw [lacks, Bool.not_eq_true', ← Bool.not_eq_true, List.contains_eq_any_beq]
  intro hany
  obtain ⟨r, hr, heq⟩ := List.any_eq_true.mp hany
  have hexpansion : ((entry.toRule semantic).expansion == r.expansion) = true := by
    have hparts : ((entry.toRule semantic).expansion == r.expansion && _) = true := heq
    exact (Bool.and_eq_true_iff.mp hparts).1
  cases hx : r.expansion with
  | terminal term shown =>
    rw [hx] at hexpansion
    obtain ⟨hterm, -⟩ : entry.term = term ∧ entry.text = shown := by
      simpa [LexicalEntry.toRule, BEq.beq, instBEqExpansion.beq] using hexpansion
    exact h r hr shown (hterm ▸ hx)
  | _ =>
    rw [hx] at hexpansion
    simp [LexicalEntry.toRule, BEq.beq, instBEqExpansion.beq] at hexpansion

/-- A rule that is accepted is added, and then the others are. -/
theorem perform_addRules_cons {r : Rule} {p : Proposal} (h : d.ruleOf id p = .ok r)
    (ps : List Proposal) :
    (addRules id (p :: ps)).perform d = (addRules id ps).perform (d.appendRule id r) := by
  have hadded : (Change.call fun d => return ((), ← d.addRule id p)).perform d =
      (.ok (), d.appendRule id r) := by
    rw [Change.perform_call]
    simp only [addRule, h]
    rfl
  refine (Change.perform_bind _ _ d).trans ?_
  rw [hadded]
  rfl

theorem get?_modifyRules {s : Symbol} (h : d.get? id = some s) (g : List Rule → List Rule) :
    (d.modifySymbol id fun s => { s with rules := g s.rules }).get? id =
      some { s with rules := g s.rules } := by
  rw [get?_eq_some_iff] at h ⊢
  exact ⟨by simp [modifySymbol, h.1], h.2⟩

theorem modifyRules_modifyRules (d : Draft) (id : SymbolId) (g k : List Rule → List Rule) :
    (d.modifySymbol id fun s => { s with rules := g s.rules }).modifySymbol id
        (fun s => { s with rules := k s.rules }) =
      d.modifySymbol id fun s => { s with rules := k (g s.rules) } := by
  simp only [modifySymbol, List.modify_modify_eq]
  rfl

theorem modifySymbol_congr {s : Symbol} {g k : Symbol → Symbol} (h : d.get? id = some s)
    (hs : g s = k s) : d.modifySymbol id g = d.modifySymbol id k := by
  have hmodify : d.symbols.modify id.index g = d.symbols.modify id.index k := by
    apply List.ext_getElem?
    intro i
    rw [List.getElem?_modify, List.getElem?_modify]
    by_cases hi : id.index = i
    · simp [← hi, (get?_eq_some_iff.mp h).1, hs]
    · simp [hi]
  rw [modifySymbol, hmodify, ← modifySymbol]

/-- The rules of a new lexical symbol are added one after the other, and none is refused. -/
theorem perform_addRules_toProposal {owner : Symbol} (howner : d.get? id = some owner)
    (hkept : ∀ entry ∈ kept, entry.Passed)
    (hsemantic : d.checkSemantics (Node.forestIds (semantic.getD [])) = .ok ())
    (hdistinct : (kept.map (·.term)).Nodup)
    (hnew : ∀ r ∈ owner.rules, ∀ entry ∈ kept, ∀ shown, r.expansion ≠ .terminal entry.term shown) :
    (addRules id (kept.map (LexicalEntry.toProposal semantic))).perform d =
      (.ok (), d.modifySymbol id fun s =>
        { s with rules := s.rules ++ kept.map (LexicalEntry.toRule semantic) }) := by
  induction kept generalizing d owner with
  | nil =>
    have hsame : (d.modifySymbol id fun s => { s with rules := s.rules ++ [] }) = d := by
      simp only [List.append_nil]
      exact congrArg (fun symbols => { d with symbols := symbols }) (List.modify_id _ _)
    exact congrArg (Prod.mk _) hsame.symm
  | cons entry kept ih =>
    obtain ⟨hfresh, hdistinct⟩ := List.nodup_cons.mp hdistinct
    obtain ⟨hentry, hkept⟩ := List.forall_mem_cons.mp hkept
    have hlacks : d.lacks id (entry.toRule semantic) = true := by
      refine lacks_toRule fun r hr => ?_
      rw [rules_of_get? howner] at hr
      exact hnew r hr entry List.mem_cons_self
    have hadded := perform_addRules_cons (ruleOf_toProposal howner hentry hsemantic)
      (kept.map (LexicalEntry.toProposal semantic))
    rw [appendRule, if_pos hlacks] at hadded
    -- The symbol now has the rule of this entry, whose term no later entry has.
    have hrest := ih (get?_modifyRules howner (· ++ [entry.toRule semantic])) hkept hsemantic
      hdistinct ?_
    · refine hadded.trans (hrest.trans ?_)
      rw [modifyRules_modifyRules d id (· ++ [entry.toRule semantic])
        (· ++ kept.map (LexicalEntry.toRule semantic))]
      simp
    · intro r hr later hlater shown heq
      rcases List.mem_append.mp hr with hr | hr
      · exact hnew r hr later (List.mem_cons_of_mem _ hlater) shown heq
      · rw [List.mem_singleton.mp hr] at heq
        injection heq with hterm
        exact hfresh (List.mem_map.mpr ⟨later, hlater, hterm.symm⟩)

/-! ### Words, verbs and pronouns -/

theorem passed_of_checkLexical (h : d.checkLexical name entries semantic = .ok kept) :
    (∀ entry ∈ kept, entry.Passed) ∧ (kept.map (·.term)).Nodup ∧
      d.checkSemantics (Node.forestIds (semantic.getD [])) = .ok () := by
  unfold checkLexical at h
  simp only [Outcome.bind_eq_ok_iff, Outcome.unless_eq_ok_iff] at h
  obtain ⟨symbol, -, _, -, normal, hnormal, -, _, hcosts, _, hsemantic, h⟩ := h
  obtain rfl := Except.ok.inj h
  refine ⟨fun entry hentry => ⟨?_, fun cost hcost => ?_⟩,
    LexicalEntry.nodup_terms_firstOccurrences _ _, hsemantic⟩
  · obtain ⟨text, htext⟩ := LexicalEntry.checkedTerm_of_mem_normalized hnormal
      (LexicalEntry.mem_of_mem_firstOccurrences hentry)
    exact Name.checkedTerm_of_checkedTerm htext
  · exact LexicalEntry.isCost_of_checkCost (Outcome.forM_eq_ok_iff.mp hcosts entry hentry) hcost

/-- A lexical symbol is refused by its own checks or for its name, with nothing changed, or it is
registered with a rule for each entry that is kept. -/
theorem perform_registerLexical (d : Draft) (name : String) (entries : List LexicalEntry)
    (semantic : Option Forest) :
    (registerLexical name entries semantic).perform d =
      match d.checkLexical name entries semantic with
      | .error e => (.error e, d)
      | .ok kept => match d.newSymbolOf true [name] with
        | .error e => (.error e, d)
        | .ok (id, f) => (.ok id, f.modifySymbol id fun s =>
            { s with rules := kept.map (LexicalEntry.toRule semantic) }) := by
  unfold registerLexical
  rw [Change.perform_bind, Change.perform_get]
  simp only
  rw [Change.perform_bind, Change.perform_ofOutcome]
  cases hcheck : d.checkLexical name entries semantic with
  | error e => rfl
  | ok kept =>
    simp only
    rw [Change.perform_bind, Change.perform_call]
    cases hnew : d.newSymbolOf true [name] with
    | error e => rfl
    | ok p =>
      obtain ⟨id, f⟩ := p
      obtain ⟨hkept, hdistinct, hsemantic⟩ := passed_of_checkLexical hcheck
      obtain ⟨symbol, hget⟩ := get?_of_newSymbolOf hnew
      rw [← checkSemantics_of_newSymbolOf hnew] at hsemantic
      have hadded := perform_addRules_toProposal hget hkept hsemantic hdistinct (by simp)
      rw [modifySymbol_congr hget (k := fun s =>
        { s with rules := kept.map (LexicalEntry.toRule semantic) }) (by simp)] at hadded
      simp only
      rw [Change.perform_bind, hadded]
      rfl

theorem addLexical_eq_ok_iff :
    d.addLexical name entries semantic = .ok (id, e) ↔
      ∃ kept f, d.checkLexical name entries semantic = .ok kept ∧
        d.newSymbolOf true [name] = .ok (id, f) ∧
        e = f.modifySymbol id fun s =>
          { s with rules := kept.map (LexicalEntry.toRule semantic) } := by
  rw [addLexical, Change.accepted_eq_ok_iff, perform_registerLexical]
  cases d.checkLexical name entries semantic with
  | error err => simp
  | ok kept =>
    cases d.newSymbolOf true [name] with
    | error err => simp
    | ok p =>
      simp only [Except.ok.injEq, Prod.mk.injEq]
      constructor
      · rintro ⟨rfl, rfl⟩
        exact ⟨kept, p.2, rfl, rfl, rfl⟩
      · rintro ⟨_, f, rfl, rfl, rfl⟩
        exact ⟨rfl, rfl⟩

/-! ### Phrases -/

theorem checkTermSequence_eq_ok_iff {owner : String} :
    d.checkTermSequence owner id = .ok () ↔
      ∃ s, d.get? id = some s ∧ s.isTermSequence = true := by
  unfold checkTermSequence
  constructor
  · intro h
    obtain ⟨s, hs, hflag⟩ := Outcome.ok_of_bind h
    refine ⟨s, get?_of_live hs, ?_⟩
    by_contra hnot
    simp [hnot, throw, throwThe, MonadExceptOf.throw] at hflag
  · rintro ⟨s, hs, hflag⟩
    have hlive : d.live id = .ok s := by simp [live, hs]
    rw [hlive]
    simp [bind, Except.bind, hflag, pure, Except.pure]

theorem forM_checkTermSequence_eq_ok_iff {owner : String} {u : Unit} :
    parts.forM (d.checkTermSequence owner) = .ok u ↔
      ∀ Y ∈ parts, ∃ s, d.get? Y = some s ∧ s.isTermSequence = true :=
  Outcome.forM_eq_ok_iff.trans (forall₂_congr fun _ _ => checkTermSequence_eq_ok_iff)

theorem exists_eq_of_length (h : ¬ (parts.isEmpty || decide (2 < parts.length)) = true) :
    ∃ first second, parts = first :: Option.toList second := by
  rcases parts with _ | ⟨first, _ | ⟨second, _ | ⟨third, rest⟩⟩⟩
  · simp at h
  · exact ⟨first, none, rfl⟩
  · exact ⟨first, some second, rfl⟩
  · simp at h

/-- What an accepted sequence is: it reads one or two live term sequences. -/
theorem sequenceExpansion_eq_ok_iff {owner : String} {text : DisplayText} {x : Expansion} :
    d.sequenceExpansion owner parts text = .ok x ↔
      (∀ Y ∈ parts, ∃ s, d.get? Y = some s ∧ s.isTermSequence = true) ∧
        ∃ first second, parts = first :: Option.toList second ∧ x = .sequence first second text := by
  unfold sequenceExpansion
  simp only [Outcome.bind_eq_ok_iff, Outcome.guard_eq_ok_iff,
    forM_checkTermSequence_eq_ok_iff]
  constructor
  · rintro ⟨hlength, _, hparts, h⟩
    obtain ⟨first, second, rfl⟩ := exists_eq_of_length hlength
    cases h
    exact ⟨hparts, first, second, rfl, by cases second <;> rfl⟩
  · rintro ⟨hparts, first, second, rfl, rfl⟩
    refine ⟨?_, (), hparts, ?_⟩
    · cases second <;> simp
    · cases second <;> rfl

theorem parts_of_checkPhrase (h : d.checkPhrase name parts semantic = .ok ()) :
    (∀ Y ∈ parts, ∃ s, d.get? Y = some s ∧ s.isTermSequence = true) ∧
      (∃ first second, parts = first :: Option.toList second) ∧
      d.checkSemantics (Node.forestIds (semantic.getD [])) = .ok () := by
  unfold checkPhrase at h
  simp only [Outcome.bind_eq_ok_iff, Outcome.guard_eq_ok_iff, forM_checkTermSequence_eq_ok_iff] at h
  obtain ⟨symbol, -, _, -, _, hparts, hlength, hsemantic⟩ := h
  exact ⟨hparts, exists_eq_of_length hlength, hsemantic⟩

/-- The rule of a phrase is accepted once its symbol is there, as its parts were checked before. -/
theorem ruleOf_phrase (text : DisplayText) {owner : Symbol} {first : SymbolId}
    {second : Option SymbolId} (howner : d.get? id = some owner)
    (hparts : ∀ Y ∈ first :: Option.toList second, ∃ s, d.get? Y = some s ∧ s.isTermSequence = true)
    (hsemantic : d.checkSemantics (Node.forestIds (semantic.getD [])) = .ok ()) :
    d.ruleOf id
        { rhs := .sequence (first :: second.toList) text, semantic := semantic.map .fixed } =
      .ok { expansion := .sequence first second text, semantic := semantic.map .fixed } := by
  have hlive : d.live id = .ok owner := by simp [live, howner]
  have hsequence : d.sequenceExpansion owner.name (first :: second.toList) text =
      .ok (.sequence first second text) :=
    sequenceExpansion_eq_ok_iff.mpr ⟨hparts, first, second, rfl, rfl⟩
  have hexpansion : d.expansionOf owner.name
      { rhs := .sequence (first :: second.toList) text, semantic := semantic.map .fixed } =
        .ok (.sequence first second text) := by
    simp only [expansionOf, hsequence]
    rfl
  have hattached : (semantic.map Attachment.fixed).forM
      (d.checkAttachment owner.name (.sequence first second text)) = .ok () :=
    checkAttachment_fixed hsemantic
  simp only [ruleOf, hlive, hexpansion, hattached, bind, Except.bind, Expansion.isLexical,
    Bool.not_true, Bool.and_false, Bool.false_eq_true, if_false]
  rfl

/-- A phrase that passes its own checks is refused for its name only, with nothing changed, or it is
registered with its rule. -/
theorem perform_registerPhrase (text : DisplayText)
    (hcheck : d.checkPhrase name parts semantic = .ok ()) :
    ∃ owner x, d.sequenceExpansion owner parts text = .ok x ∧
      (registerPhrase name parts text semantic).perform d =
        match d.newSymbolOf true [name] with
        | .error e => (.error e, d)
        | .ok (id, f) =>
          (.ok id, f.appendRule id { expansion := x, semantic := semantic.map .fixed }) := by
  obtain ⟨hparts, ⟨first, second, rfl⟩, hsemantic⟩ := parts_of_checkPhrase hcheck
  refine ⟨name, .sequence first second text,
    sequenceExpansion_eq_ok_iff.mpr ⟨hparts, first, second, rfl, rfl⟩, ?_⟩
  unfold registerPhrase
  rw [Change.perform_bind, Change.perform_get]
  simp only
  rw [Change.perform_bind, Change.perform_ofOutcome, hcheck]
  simp only
  rw [Change.perform_bind, Change.perform_call]
  cases hnew : d.newSymbolOf true [name] with
  | error e => rfl
  | ok p =>
    obtain ⟨id, f⟩ := p
    obtain ⟨symbol, hget⟩ := get?_of_newSymbolOf hnew
    have hpartsNew : ∀ Y ∈ first :: Option.toList second,
        ∃ s, f.get? Y = some s ∧ s.isTermSequence = true := by
      intro Y hY
      obtain ⟨s, hs, hflag⟩ := hparts Y hY
      obtain ⟨_, -, -, heq⟩ := newSymbolOf_eq hnew
      obtain ⟨rfl, rfl⟩ := Prod.mk.inj heq
      exact ⟨s, get?_appendSymbol hs, hflag⟩
    rw [← checkSemantics_of_newSymbolOf hnew] at hsemantic
    have hadded := perform_addRules_cons (ruleOf_phrase text hget hpartsNew hsemantic) []
    simp only
    rw [Change.perform_bind, hadded]
    rfl

theorem rule_of_newPhrase {text : DisplayText}
    (h : d.newPhrase name parts text semantic = .ok (id, e)) :
    ∃ owner x f, d.sequenceExpansion owner parts text = .ok x ∧
      d.checkSemantics (Node.forestIds (semantic.getD [])) = .ok () ∧
      d.newSymbolOf true [name] = .ok (id, f) ∧
      e = f.appendRule id { expansion := x, semantic := semantic.map .fixed } := by
  rw [newPhrase, Change.accepted_eq_ok_iff] at h
  cases hcheck : d.checkPhrase name parts semantic with
  | error err =>
    unfold registerPhrase at h
    simp [Change.perform_bind, hcheck] at h
  | ok u =>
    obtain ⟨owner, x, hx, hperform⟩ := perform_registerPhrase text hcheck
    rw [hperform] at h
    cases hnew : d.newSymbolOf true [name] with
    | error err => simp [hnew] at h
    | ok p =>
      rw [hnew] at h
      cases h
      exact ⟨owner, x, p.2, hx, (parts_of_checkPhrase hcheck).2.2, rfl, rfl⟩

end Draft

end QueryGrammar
