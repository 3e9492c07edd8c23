import QueryGrammar.Proofs.Draft.Shaped
import QueryGrammar.Proofs.Workspace.Attached
import QueryGrammar.Proofs.Workspace.Names
/-!
The rules of term sequences. Registration admits lexical rules only, and a term with no words is one
of them. Finishing turns a rule with such a term into a reference to the symbol that matches
nothing, at a term sequence as anywhere else, and this is the only way to a rule that is not
lexical.
-/
namespace QueryGrammar

open Change

namespace Draft

/-- The rule refers to the symbol that matches nothing. -/
def RefersToNothing (d : Draft) (r : Rule) : Prop :=
  ∃ Y, r.expansion = .unary Y false ∧ d.symbolName Y = emptyName

/-- The live rules of term sequences are lexical, unless they are in `S`. -/
def LexicalUnless (S : Draft → Rule → Prop) (d : Draft) : Prop :=
  ∀ X, d.IsTermSequence X → ∀ r ∈ d.rules X, r.expansion.isLexical = true ∨ S d r

/-- Every live rule of a term sequence is lexical. -/
def Lexical (d : Draft) : Prop :=
  ∀ X, d.IsTermSequence X → ∀ r ∈ d.rules X, r.expansion.isLexical = true

/-- Some derivation from the start symbol applies a rule of a term sequence with an empty term. -/
def AppliesEmptyTerm (d : Draft) : Prop :=
  ∃ X r text, d.IsTermSequence X ∧ d.Applies X r ∧ r.expansion = .terminal "" text

theorem lexical_iff {d : Draft} : d.Lexical ↔ d.LexicalUnless fun _ _ => False := by
  simp [Lexical, LexicalUnless]

variable {d e : Draft} {S : Draft → Rule → Prop}

/-- Exceptions that stay such while names stay at their numbers. -/
def Steady (S : Draft → Rule → Prop) : Prop := ∀ ⦃d e r⦄, d.KeepsNames e → S d r → S e r

theorem steady_refersToNothing : Steady RefersToNothing := by
  rintro d e r h ⟨Y, hr, hname⟩
  refine ⟨Y, hr, ?_⟩
  unfold symbolName at hname
  split at hname
  next s hs =>
    have hmem := h.symbols Y.index s.name (by rw [List.getElem?_map, hs, Option.map_some])
    rw [List.getElem?_map, Option.map_eq_some_iff] at hmem
    obtain ⟨t, ht, hsame⟩ := hmem
    rw [symbolName, ht]
    exact hsame.trans hname
  next => exact absurd hname (by decide)

theorem LexicalUnless.step (hS : Steady S) (hd : d.LexicalUnless S) (hnames : d.KeepsNames e)
    (hrules : ∀ X, e.IsTermSequence X → ∀ r ∈ e.rules X,
      r.expansion.isLexical = true ∨ d.IsTermSequence X ∧ r ∈ d.rules X) : e.LexicalUnless S := by
  intro X hX r hr
  rcases hrules X hX r hr with hlexical | ⟨hold, hmem⟩
  · exact Or.inl hlexical
  · exact (hd X hold r hmem).imp_right fun h => hS hnames h

/-! ### Registration -/

theorem LexicalUnless.appendSymbol {s : Symbol} (hS : Steady S) (hd : d.LexicalUnless S)
    (hnone : s.rules = []) : (d.appendSymbol s).2.LexicalUnless S := by
  refine hd.step hS (d.keepsNames_appendSymbol s) fun X hX r hr => Or.inr ?_
  have hmem := rules_appendSymbol_subset hnone X hr
  obtain ⟨t, ht⟩ := mem_liveSymbols_iff.mp (live_of_mem_rules hmem)
  have hlt := (List.getElem?_eq_some_iff.mp (get?_eq_some_iff.mp ht).1).1
  obtain ⟨u, hu, hflag⟩ := hX
  rw [Draft.appendSymbol, List.getElem?_append_left hlt] at hu
  exact ⟨⟨u, hu, hflag⟩, hmem⟩

theorem isTermSequence_modifyRules {id X : SymbolId} {g : List Rule → List Rule} :
    (d.modifySymbol id fun s => { s with rules := g s.rules }).IsTermSequence X ↔
      d.IsTermSequence X := by
  refine ⟨?_, fun h => d.keepsTermSequences_modifyRules id g X h⟩
  rintro ⟨t, ht, hflag⟩
  rw [getElem?_modifyRules] at ht
  obtain ⟨s, hs, rfl⟩ := Option.map_eq_some_iff.mp ht
  refine ⟨s, hs, ?_⟩
  split at hflag <;> exact hflag

theorem LexicalUnless.modifyRules {id : SymbolId} {g : List Rule → List Rule} (hS : Steady S)
    (hd : d.LexicalUnless S)
    (hnew : d.IsTermSequence id → ∀ r ∈ g (d.rules id),
      r ∈ d.rules id ∨ r.expansion.isLexical = true) :
    (d.modifySymbol id fun s => { s with rules := g s.rules }).LexicalUnless S := by
  refine hd.step hS (d.keepsNames_modifyRules id g) fun X hX r hr => ?_
  have hflag := isTermSequence_modifyRules.mp hX
  have hmem := (mem_rules_modifyRules.mp hr).2
  split at hmem
  next hsame =>
    obtain rfl : id = X := by
      cases id
      cases X
      exact congrArg SymbolId.mk hsame
    exact (hnew hflag r hmem).symm.imp_right fun h => ⟨hflag, h⟩
  next => exact Or.inr ⟨hflag, hmem⟩

theorem LexicalUnless.appendRule {id : SymbolId} {r : Rule} (hS : Steady S)
    (hd : d.LexicalUnless S) (hr : d.IsTermSequence id → r.expansion.isLexical = true) :
    (d.appendRule id r).LexicalUnless S := by
  unfold Draft.appendRule
  split
  · refine hd.modifyRules (g := (· ++ [r])) hS fun hid q hq => ?_
    rcases List.mem_append.mp hq with hq | hq
    · exact Or.inl hq
    · exact Or.inr (List.mem_singleton.mp hq ▸ hr hid)
  · exact hd

/-- A rule that is no lexical one is refused at a term sequence. -/
theorem isLexical_of_ruleOf {id : SymbolId} {p : Proposal} {r : Rule} (h : d.ruleOf id p = .ok r)
    (hid : d.IsTermSequence id) : r.expansion.isLexical = true := by
  unfold ruleOf at h
  simp only [Outcome.bind_eq_ok_iff, Outcome.guard_eq_ok_iff] at h
  obtain ⟨owner, howner, x, -, hlexical, _, -, _, -, h⟩ := h
  cases h
  obtain ⟨s, hs, hflag⟩ := hid
  obtain rfl := Option.some.inj (hs.symm.trans (get?_eq_some_iff.mp (get?_of_live howner)).1)
  simpa [hflag] using hlexical

theorem lexicalUnless_stepInvariant (hS : Steady S) : StepInvariant (LexicalUnless S) where
  newSymbol hd h := by
    obtain ⟨name, -, -, heq⟩ := newSymbolOf_eq h
    obtain ⟨rfl, rfl⟩ := Prod.mk.inj heq
    exact hd.appendSymbol hS rfl
  addRule hd h := by
    obtain ⟨r, hr, h⟩ := Outcome.ok_of_bind h
    cases h
    exact hd.appendRule hS (isLexical_of_ruleOf hr)
  addLexical {d e} _ _ semantic _ hd h := by
    obtain ⟨kept, f, -, hnew, rfl⟩ := addLexical_eq_ok_iff.mp h
    obtain ⟨name, -, -, heq⟩ := newSymbolOf_eq hnew
    obtain ⟨rfl, rfl⟩ := Prod.mk.inj heq
    refine (hd.appendSymbol hS rfl).modifyRules (g := fun _ => _) hS fun _ r hr => Or.inr ?_
    obtain ⟨entry, -, rfl⟩ := List.mem_map.mp hr
    rfl
  newPhrase hd h := by
    obtain ⟨owner, x, f, hx, -, hnew, rfl⟩ := rule_of_newPhrase h
    obtain ⟨name, -, -, heq⟩ := newSymbolOf_eq hnew
    obtain ⟨rfl, rfl⟩ := Prod.mk.inj heq
    refine (hd.appendSymbol hS rfl).appendRule hS fun _ => ?_
    obtain ⟨-, first, second, -, rfl⟩ := sequenceExpansion_eq_ok_iff.mp hx
    rfl
  newSemantic hd h := by
    have hnames := keepsNames_newSemantic h
    obtain ⟨-, heq⟩ := newSemantic_eq h
    cases heq
    exact hd.step hS hnames fun X hX r hr => Or.inr ⟨hX, hr⟩
  newEntityCategory {d e} _ _ _ hd h := by
    obtain ⟨-, heq⟩ := newEntityCategory_eq h
    cases heq
    exact hd.step hS ⟨fun _ _ h => h, fun _ _ h => h⟩ fun X hX r hr => Or.inr ⟨hX, hr⟩
  deferStopWords pending hd :=
    hd.step hS ⟨fun _ _ h => h, fun _ _ h => h⟩ fun X hX r hr => Or.inr ⟨hX, hr⟩

/-! ### Finishing -/

theorem LexicalUnless.trimmed (hS : Steady S) (hd : d.LexicalUnless S) (hstart : d.Expands start) :
    d.trimmed.LexicalUnless S :=
  hd.step hS d.keepsNames_trimmed fun _ hX _ hr =>
    Or.inr ⟨isTermSequence_trimmed_iff.mp hX, ((mem_rules_trimmed_iff hstart).mp hr).expands.1⟩

/-- The names of made symbols are known, and that the symbols are read as their names say. -/
def HoldsNamed (d : Draft) (X : SymbolId) (tokens : List String) : Prop :=
  d.Holds X tokens ∧ d.symbolName X = rowName tokens

theorem Consistent.tokenizedNamed (hd : d.Consistent) :
    Tokenized d.HoldsNamed d d.liveSymbols d.tokenize.2 := by
  refine tokenized_tokenize (fun i s tokens hs htokens hname => ?_) fun X r hr =>
    (hd.rules X r hr).term
  exact ⟨hd.knowsMade i s tokens hs htokens hname, by rw [symbolName, hs]; exact hname⟩

theorem knowsLive_holdsNamed (d : Draft) : KnowsLive d.HoldsNamed d := fun _ _ h => h.1.live

section Tokenized

variable (h : Tokenized d.HoldsNamed d d.liveSymbols e)
include h

/-- What an empty term is read through is the symbol that matches nothing. -/
theorem Tokenized.symbolName_nothing {Y : SymbolId}
    (hreads : e.Reads d.symbols.length d.HoldsNamed Y []) : e.symbolName Y = emptyName := by
  cases hreads with
  | known _ hknown => exact (h.symbolName_eq hknown.1.live).trans hknown.2
  | nothing hmade hrules =>
    obtain ⟨s, hs⟩ := mem_liveSymbols_iff.mp
      (live_of_mem_rules (hrules ▸ List.mem_singleton_self _ : _ ∈ e.rules Y))
    obtain ⟨hget, -⟩ := get?_eq_some_iff.mp hs
    obtain ⟨⟨tokens, htokens, hname, hothers⟩, -⟩ := h.made Y.index s hget hmade
    have hnone : tokens = [] := by
      cases hothers with
      | known hold => exact absurd hold (Nat.not_lt.mpr hmade)
      | nothing => rfl
      | token _ htoken hrules' =>
        have hsame := hrules.symm.trans hrules'
        simp only [List.cons.injEq, Rule.mk.injEq, Expansion.terminal.injEq] at hsame
        exact absurd hsame.1.1.1.symm htoken.ne_emptyName
      | row _ _ hrules' => simp [hrules] at hrules'
    rw [symbolName, hget]
    exact hname.trans (congrArg rowName hnone)

theorem Tokenized.isTermSequence_iff {X : SymbolId} (hX : X ∈ d.liveSymbols) :
    e.IsTermSequence X ↔ d.IsTermSequence X := by
  obtain ⟨s, hs⟩ := mem_liveSymbols_iff.mp hX
  have hget := (get?_eq_some_iff.mp hs).1
  obtain ⟨rules, hrules, -⟩ := h.content X s hget
  simp [IsTermSequence, hget, hrules]

/-- A rule of a term sequence is lexical, was there before, or stands for one with an empty term. -/
theorem Tokenized.sequence_rule_cases (hd : d.Consistent) {X : SymbolId} (hX : e.IsTermSequence X)
    {r : Rule} (hr : r ∈ e.rules X) : r.expansion.isLexical = true ∨ d.IsTermSequence X ∧
      ∃ q ∈ d.rules X, q = r ∨ (∃ text, q.expansion = .terminal "" text) ∧ e.RefersToNothing r := by
  rcases h.rule_cases d.knowsLive_holdsNamed hr with ⟨hlive, q, hq, hsplits⟩ | hmade
  · have hflag := (h.isTermSequence_iff hlive).mp hX
    cases hsplits with
    | same => exact Or.inr ⟨hflag, r, hq, Or.inl rfl⟩
    | @nothing term text empty hterminal hwords hreads =>
      have hterm : term = "" := by
        rcases (hd.rules X q hq).term term text hterminal with hnormal | hsingle
        · rw [← hnormal.joined, hwords]
          rfl
        · simp [hsingle] at hwords
      exact Or.inr ⟨hflag, q, hq, Or.inr ⟨⟨text, hterm ▸ hterminal⟩, empty, rfl,
        h.symbolName_nothing hreads⟩⟩
    | row => exact Or.inl rfl
  · left
    cases hmade <;> rfl

/-- A rule with an empty term does not stay lexical. -/
theorem Tokenized.exists_not_lexical {X : SymbolId} {q : Rule} (hq : q ∈ d.rules X)
    {text : DisplayText} (hterminal : q.expansion = .terminal "" text) :
    ∃ r ∈ e.rules X, r.expansion.isLexical = false := by
  obtain ⟨r, hr, hsplits⟩ := (exists_mem_of_forall₂ (h.rules (live_of_mem_rules hq))).1 q hq
  have hnone : Text.wordsOf "" = [] := by decide
  refine ⟨r, hr, ?_⟩
  cases hsplits with
  | same hsingle => simp [hsingle _ _ hterminal] at hnone
  | nothing => rfl
  | row hterminal' hwords =>
    obtain ⟨rfl, -⟩ := Expansion.terminal.inj (hterminal.symm.trans hterminal')
    simp [hnone] at hwords

end Tokenized

theorem AddsRules.isTermSequence_iff {P : SymbolId → Rule → Prop} (h : AddsRules P d e)
    {X : SymbolId} : e.IsTermSequence X ↔ d.IsTermSequence X := by
  cases hs : d.symbols[X.index]? with
  | none =>
    have hlength : e.symbols.length ≤ X.index := by
      rw [h.length_eq]
      exact List.getElem?_eq_none_iff.mp hs
    simp [IsTermSequence, hs, List.getElem?_eq_none_iff.mpr hlength]
  | some s =>
    obtain ⟨added, he, -⟩ := h.content X s hs
    simp [IsTermSequence, hs, he]

/-- Edits are made from rules over two symbols, which term sequences do not have. -/
theorem LexicalUnless.withEdits (hS : Steady S)
    (hplain : ∀ d r, S d r → ∀ first second cost excluded,
      r.expansion ≠ .binary first second cost excluded)
    (hd : d.LexicalUnless S) (includeTrees : Bool) :
    (d.withEdits includeTrees).2.LexicalUnless S := by
  have hadds := d.addsRules_withEdits includeTrees
  refine hd.step hS hadds.keepsNames fun X hX r hr => ?_
  have hflag := hadds.isTermSequence_iff.mp hX
  rcases rule_withEdits_cases includeTrees hr with hr | ⟨parent, hparent, -, hmem⟩
  · exact Or.inr ⟨hflag, hr⟩
  · obtain ⟨first, second, cost, excluded, hbinary, -⟩ := mem_editsOf_cases hmem
    rcases hd X hflag parent hparent with hlexical | hexcepted
    · simp [hbinary, Expansion.isLexical] at hlexical
    · exact absurd hbinary (hplain d parent hexcepted _ _ _ _)

theorem LexicalUnless.complete (hS : Steady S)
    (hplain : ∀ d r, S d r → ∀ first second cost excluded,
      r.expansion ≠ .binary first second cost excluded)
    (hempty : d.AppliesEmptyTerm → ∀ e r, RefersToNothing e r → S e r) (hd : d.LexicalUnless S)
    (hconsistent : d.Consistent) (hstart : d.Expands start) (o : Options) (unused : List String) :
    (d.trimmed.complete o unused).2.LexicalUnless S := by
  have htrimmed := hd.trimmed hS hstart
  have htok := (hconsistent.trimmed hstart).tokenizedNamed
  refine LexicalUnless.withEdits hS hplain (fun X hX r hr => ?_) o.includeTrees
  rcases htok.sequence_rule_cases (hconsistent.trimmed hstart) hX hr with
    hlexical | ⟨hflag, q, hq, rfl | ⟨⟨text, hterminal⟩, hnothing⟩⟩
  · exact Or.inl hlexical
  · exact (htrimmed X hflag q hq).imp_right fun h => hS htok.keepsNames h
  · have happlies := (mem_rules_trimmed_iff hstart).mp hq
    exact Or.inr (hempty ⟨X, q, text, isTermSequence_trimmed_iff.mp hflag, happlies, hterminal⟩ _ r
      hnothing)

theorem Consistent.not_lexical_complete (hd : d.Consistent) (hstart : d.Expands start)
    (hempty : d.AppliesEmptyTerm) (o : Options) (unused : List String) :
    ¬ (d.trimmed.complete o unused).2.Lexical := by
  obtain ⟨X, q, text, hflag, happlies, hterminal⟩ := hempty
  have htok := (hd.trimmed hstart).tokenizedNamed
  have hadds := d.trimmed.tokenize.2.addsRules_withEdits o.includeTrees
  have hq := (mem_rules_trimmed_iff hstart).mpr happlies
  obtain ⟨r, hr, hnot⟩ := htok.exists_not_lexical hq hterminal
  have hX : (d.trimmed.complete o unused).2.IsTermSequence X :=
    hadds.isTermSequence_iff.mpr ((htok.isTermSequence_iff (live_of_mem_rules hq)).mpr
      (isTermSequence_trimmed_iff.mpr hflag))
  intro hlexical
  exact absurd (hlexical X hX r (hadds.extends.rules X hr)) (by simp [hnot])

end Draft

theorem Draft.RefersToNothing.ne_binary {d : Draft} {r : Rule} (h : d.RefersToNothing r)
    (first second : SymbolId) (cost : Option Float) (excluded : Excluded) :
    r.expansion ≠ .binary first second cost excluded := by
  obtain ⟨Y, hr, -⟩ := h
  simp [hr]

/-- Calls of all kinds leave no other rules with term sequences. -/
theorem lexicalUnless_callInvariant :
    CallInvariant fun d => d.Consistent ∧ d.LexicalUnless Draft.RefersToNothing where
  toStepInvariant := consistent_stepInvariant.and
    (Draft.lexicalUnless_stepInvariant Draft.steady_refersToNothing)
  trimmed hd hstart := ⟨hd.1.trimmed hstart, hd.2.trimmed Draft.steady_refersToNothing hstart⟩
  complete o unused hd hstart := ⟨(hd.1.complete_trimmed hstart o unused).1,
    hd.2.complete Draft.steady_refersToNothing (fun _ _ => Draft.RefersToNothing.ne_binary)
      (fun _ _ _ h => h) hd.1 hstart o unused⟩

theorem lexical_stepInvariant : StepInvariant Draft.Lexical := by
  have heq : Draft.Lexical = Draft.LexicalUnless fun _ _ => False :=
    funext fun _ => propext Draft.lexical_iff
  rw [heq]
  exact Draft.lexicalUnless_stepInvariant fun _ _ _ _ h => h

theorem Draft.Lexical.trimmed {d : Draft} (h : d.Lexical) (hstart : d.Expands Draft.start) :
    d.trimmed.Lexical :=
  lexical_iff.mpr ((lexical_iff.mp h).trimmed (fun _ _ _ _ h => h) hstart)

theorem Draft.lexical_empty : Draft.empty.Lexical := fun X _ r hr => by simp [rules_empty] at hr

theorem Registered.lexical {ws : Workspace} (h : Registered ws) : ws.draft.Lexical :=
  h.induction lexical_stepInvariant Draft.lexical_empty

/-- What is finished has lexical term sequences exactly if none had a rule with an empty term in
use. -/
theorem Draft.Consistent.lexical_finish_iff {d e : Draft} {o : Options} {c : Compilation}
    (hd : d.Consistent) (h : d.Lexical) (hfinish : (Draft.finish o).perform d = (.ok c, e)) :
    e.Lexical ↔ ¬ d.filled.AppliesEmptyTerm := by
  obtain ⟨hstart, unused, hcomplete⟩ := exists_of_finish hfinish
  have hfilled : d.filled.Lexical := StopWords.keeps_fill lexical_stepInvariant d h
  obtain rfl : (d.filled.trimmed.complete o unused).2 = e := congrArg Prod.snd hcomplete
  refine ⟨fun hlexical hempty => ?_, fun hnone => lexical_iff.mpr ?_⟩
  · exact hd.filled.not_lexical_complete hstart hempty o unused hlexical
  · exact (lexical_iff.mp hfilled).complete (fun _ _ _ _ h => h) (fun _ _ h => h.elim)
      (fun hempty => absurd hempty hnone) hd.filled hstart o unused

/-- The call finishes the grammar while a rule of a term sequence with an empty term is in use. -/
inductive Empties : {α : Type} → Workspace → Registration α → Prop where
  | finish {ws : Workspace} {o : Options} {c : Compilation} {e : Draft}
      (accepted : (Draft.finish o).perform ws.draft = (.ok c, e))
      (empty : ws.draft.filled.AppliesEmptyTerm) : Empties ws (Registration.finish o)

/-- A call on lexical term sequences leaves them lexical, unless it finishes the grammar with an
empty term in use. -/
theorem Built.lexical_call_iff {ws : Workspace} (h : Built ws) {α : Type} {x : Registration α}
    (hcall : ModuleCall x) (hlexical : ws.draft.Lexical) :
    (x.perform ws).2.draft.Lexical ↔ ¬ Empties ws x := by
  constructor
  · rintro hafter (⟨haccepted, hempty⟩ : Empties ws x)
    rename_i o c e
    have hdraft : ((Registration.finish o).perform ws).2.draft = e := by
      rw [Registration.finish, perform_within, haccepted]
    rw [hdraft] at hafter
    exact (h.consistent.lexical_finish_iff hlexical haccepted).mp hafter hempty
  · intro hnone
    cases hcall with
    | register call => exact call.keeps lexical_stepInvariant.registration ws hlexical
    | removeUnused policy =>
      rw [Registration.call, perform_within, perform_call]
      cases hremove : ws.draft.removeUnused policy with
      | error err => exact hlexical
      | ok p =>
        obtain ⟨hstart, heq⟩ := expands_of_removeUnused hremove
        exact heq ▸ hlexical.trimmed hstart
    | finish o =>
      rw [Registration.finish, perform_within]
      cases hfinish : (Draft.finish o).perform ws.draft with
      | mk outcome e =>
        cases outcome with
        | error err =>
          obtain rfl := Draft.eq_filled_of_refused_finish hfinish
          exact StopWords.keeps_fill lexical_stepInvariant ws.draft hlexical
        | ok c =>
          exact (h.consistent.lexical_finish_iff hlexical hfinish).mpr fun hempty =>
            hnone (.finish hfinish hempty)

/-- The rules of term sequences are lexical in every workspace, but for references to the symbol
that matches nothing. These come only from finishing with an empty term in use: without it all rules
of term sequences are lexical, and a call takes this away exactly if it does that. -/
theorem Built.lexical_exactly {ws : Workspace} (h : Built ws) :
    (∀ X, ws.draft.IsTermSequence X → ∀ r ∈ ws.draft.rules X,
      r.expansion.isLexical = true ∨
        ∃ Y, r.expansion = .unary Y false ∧ ws.draft.symbolName Y = emptyName) ∧
      (BuiltBy (fun _ ws x _ => ¬ Empties ws x) ws → ws.draft.Lexical) ∧
      ∀ (α : Type) (x : Registration α), ModuleCall x → ws.draft.Lexical →
        ((x.perform ws).2.draft.Lexical ↔ ¬ Empties ws x) := by
  have hnearly := h.induction lexicalUnless_callInvariant
    ⟨Draft.consistent_empty, fun X hX r hr => Or.inl (Draft.lexical_empty X hX r hr)⟩
  refine ⟨hnearly.2, fun hby => ?_, fun _ _ => h.lexical_call_iff⟩
  clear h hnearly
  induction hby with
  | init => exact Draft.lexical_empty
  | call before hcall hsuits ih =>
    exact (before.built.lexical_call_iff hcall.moduleCall ih).mpr hsuits

theorem Empties.applies {ws : Workspace} {α : Type} {x : Registration α} (h : Empties ws x) :
    ws.draft.filled.AppliesEmptyTerm := by
  cases h
  assumption

/-- A greeting of two words, which is split when the grammar is finished. -/
def greetingOnly : Registration Unit := do
  let greeting ← Registration.addWord "greeting" ["hello there"] ["hi"] none
  Registration.addRule Draft.start (.unary greeting)

theorem lexical_exactly_greetingOnly : ∃ ws : Workspace, Built ws ∧ ws.draft.Lexical ∧
    ((Registration.finish {}).perform ws).2.draft.Lexical := by
  have hkeeps : Keeps Registered greetingOnly :=
    .bind (fun _ hws => .call hws (.addWord _ _ _ _)) fun _ => fun _ hws =>
      .call hws (.addRule _ _)
  have hws := hkeeps {} .init
  have hterms : ∀ s ∈ (greetingOnly.perform {}).2.draft.filled.symbols, ∀ r ∈ s.rules,
      Token.word "" ∉ Draft.empty.ownTokens ([·]) r.expansion := by
    decide +kernel
  refine ⟨_, hws.built, hws.lexical,
    (hws.built.lexical_exactly.2.2 _ _ (.finish {}) hws.lexical).mpr fun hempties => ?_⟩
  obtain ⟨X, r, text, -, happlies, hterminal⟩ := hempties.applies
  have hr := happlies.expands.1
  obtain ⟨s, hs⟩ := Draft.mem_liveSymbols_iff.mp (Draft.live_of_mem_rules hr)
  have hmem := List.mem_of_getElem? (Draft.get?_eq_some_iff.mp hs).1
  have hterm := hterms s hmem r (Draft.rules_of_get? hs ▸ hr)
  simp [Draft.ownTokens, hterminal] at hterm

/-- A word that also reads an empty term. -/
def silentWord : Registration Unit := do
  let hello ← Registration.addWord "hello" ["hello"] [] none
  Registration.addRule hello (.terminal "" .verbatim)
  Registration.addRule Draft.start (.unary hello)

theorem exists_not_lexical_built : ∃ ws : Workspace, Built ws ∧ ¬ ws.draft.Lexical := by
  have hkeeps : Keeps Built silentWord :=
    .bind (ModuleCall.register (.addWord _ _ _ _)).keepsBuilt fun _ =>
      .bind (ModuleCall.register (.addRule _ _)).keepsBuilt fun _ =>
        (ModuleCall.register (.addRule _ _)).keepsBuilt
  refine ⟨((Registration.finish {}).perform (silentWord.perform {}).2).2,
    .call (hkeeps {} .init) (.finish {}), fun h => ?_⟩
  have hflag : (((Registration.finish {}).perform (silentWord.perform {}).2).2.draft.symbols[1]?.map
      (·.isTermSequence)) = some true := by decide +kernel
  have hrule : (((Registration.finish {}).perform (silentWord.perform {}).2).2.draft.rules ⟨1⟩).any
      (fun r => !r.expansion.isLexical) = true := by decide +kernel
  obtain ⟨r, hr, hnot⟩ := List.any_eq_true.mp hrule
  obtain ⟨s, hs, hsequence⟩ := Option.map_eq_some_iff.mp hflag
  rw [h ⟨1⟩ ⟨s, hs, hsequence⟩ r hr] at hnot
  cases hnot

end QueryGrammar
