import QueryGrammar.Draft.StopWords
import QueryGrammar.Proofs.Draft.Gains
/-!
How symbols get their stop words. The rule that reads a stop word carries no costs, so a symbol has it
exactly if it has one that compares equal to it; and nothing is refused but words for a symbol that is
not there.
-/
namespace QueryGrammar.StopWords

open Change

/-- The rule that reads a stop word. -/
def stopRule (word : String) : Rule := { expansion := .terminal word .silent }

variable {d e : Draft} {X Y : SymbolId} {word : String} {words : List String} {r : Rule}

theorem unsigned_stopRule (word : String) : (stopRule word).Unsigned := by
  simp [Rule.Unsigned, Rule.costs, Expansion.costs, stopRule]

theorem checkedTerm_of_mem_defaults (h : word ∈ defaults) :
    Name.checkedTerm word = .ok word := by
  have hall : ∀ word ∈ defaults, (Name.checkedTerm word).toOption = some word := by decide +kernel
  exact toOption_eq_some_iff.mp (hall word h)

/-- A live symbol may have any stop word. -/
theorem ruleOf_stopWord_eq_ok_iff (hword : word ∈ defaults) :
    d.ruleOf X (.terminal word .silent) = .ok r ↔ X ∈ d.liveSymbols ∧ r = stopRule word := by
  constructor
  · intro h
    unfold Draft.ruleOf at h
    simp only [Outcome.bind_eq_ok_iff, Outcome.guard_eq_ok_iff] at h
    obtain ⟨owner, hlive, x, hx, -, _, -, _, -, h⟩ := h
    unfold Draft.expansionOf at hx
    simp only [Proposal.terminal, Outcome.bind_eq_ok_iff] at hx
    obtain ⟨_, -, term, hterm, hx⟩ := hx
    rw [checkedTerm_of_mem_defaults hword] at hterm
    cases hterm
    cases hx
    cases h
    exact ⟨Draft.mem_liveSymbols_iff.mpr ⟨owner, Draft.get?_of_live hlive⟩, rfl⟩
  · rintro ⟨hX, rfl⟩
    obtain ⟨s, hs⟩ := Draft.mem_liveSymbols_iff.mp hX
    have hlive : d.live X = .ok s := by simp [Draft.live, hs]
    have hx : d.expansionOf s.name (.terminal word .silent) = .ok (.terminal word .silent) := by
      simp only [Draft.expansionOf, Proposal.terminal, checkedTerm_of_mem_defaults hword]
      rfl
    simp only [Draft.ruleOf, hlive, hx, bind, Except.bind]
    simp [Expansion.isLexical, Proposal.terminal, stopRule]
    rfl

theorem eq_none_of_beq {α : Type} [BEq α] {x : Option α} (h : ((none : Option α) == x) = true) :
    x = none := by
  cases x with
  | none => rfl
  | some a => simp at h

/-- A rule that compares equal to that of a stop word is that rule: neither has costs. -/
theorem eq_stopRule_of_beq (h : (stopRule word == r) = true) : r = stopRule word := by
  have hparts : (Expansion.terminal word .silent == r.expansion && ((none : Option Attachment) ==
      r.semantic && (({} : Features) == r.features && ((none : Option Float) == r.insertionCost &&
        (none : Option Edit) == r.edit)))) = true := h
  simp only [Bool.and_eq_true] at hparts
  obtain ⟨hexpansion, -, -, hinsertion, hedit⟩ := hparts
  have hcosts : r.expansion.costs = [] := by
    cases hx : r.expansion with
    | binary => simp [hx, BEq.beq, instBEqExpansion.beq] at hexpansion
    | _ => rfl
  refine (Rule.eq_of_beq (unsigned_stopRule word) ?_ h).symm
  simp [Rule.Unsigned, Rule.costs, hcosts, eq_none_of_beq hinsertion, eq_none_of_beq hedit]

theorem lacks_stopRule_iff : d.lacks X (stopRule word) = false ↔ stopRule word ∈ d.rules X := by
  have hself : (stopRule word == stopRule word) = true :=
    Rule.beq_self (by simp [stopRule, Rule.costs, Expansion.costs])
  simp only [Draft.lacks, Bool.not_eq_false', List.contains_eq_any_beq, List.any_eq_true]
  constructor
  · rintro ⟨r, hr, heq⟩
    exact eq_stopRule_of_beq heq ▸ hr
  · exact fun h => ⟨_, h, hself⟩

theorem appendStop_of_mem (h : stopRule word ∈ d.rules X) : d.appendRule X (stopRule word) = d := by
  rw [Draft.appendRule, lacks_stopRule_iff.mpr h]
  rfl

theorem mem_rules_appendStop (hX : X ∈ d.liveSymbols) :
    r ∈ (d.appendRule X (stopRule word)).rules Y ↔ r ∈ d.rules Y ∨ Y = X ∧ r = stopRule word :=
  Draft.mem_rules_appendRule_of_lacks hX lacks_stopRule_iff.mp

theorem mem_liveSymbols_appendStop :
    Y ∈ (d.appendRule X (stopRule word)).liveSymbols ↔ Y ∈ d.liveSymbols :=
  (Draft.addsRules_appendRule (P := fun _ _ => True) trivial).mem_liveSymbols_iff

/-! ### Words that are given -/

/-- The draft whose symbol has been given these words. -/
def give (X : SymbolId) (words : List String) (d : Draft) : Draft :=
  words.foldl (fun d word => d.appendRule X (stopRule word)) d

/-- The draft whose symbols have been given the words that are settled for them. -/
def giveAll (settled : List (SymbolId × List String)) (d : Draft) : Draft :=
  settled.foldl (fun d p => give p.1 p.2 d) d

/-- What is settled for the symbols that wait. -/
def settled (d : Draft) : List (SymbolId × List String) :=
  d.pendingStopWords.map fun p => (p.1, allowed d p.2)

/-- The symbols that get words are there. -/
def Fillable (settled : List (SymbolId × List String)) (d : Draft) : Prop :=
  ∀ p ∈ settled, p.2 ≠ [] → p.1 ∈ d.liveSymbols

theorem mem_defaults_of_mem_allowed {conflicting : Option SymbolId}
    (h : word ∈ allowed d conflicting) : word ∈ defaults := by
  unfold allowed at h
  split at h
  · exact h
  · exact (List.mem_filter.mp h).1

theorem mem_defaults_of_settled {p : SymbolId × List String} (hp : p ∈ settled d) :
    ∀ word ∈ p.2, word ∈ defaults := by
  obtain ⟨q, -, rfl⟩ := List.mem_map.mp hp
  exact fun word hword => mem_defaults_of_mem_allowed hword

theorem addsRules_give (X : SymbolId) (words : List String) (d : Draft) :
    Draft.AddsRules (fun _ _ => True) d (give X words d) := by
  induction words generalizing d with
  | nil => exact .refl _ d
  | cons word words ih => exact (Draft.addsRules_appendRule trivial).trans (ih _)

theorem addsRules_giveAll (all : List (SymbolId × List String)) (d : Draft) :
    Draft.AddsRules (fun _ _ => True) d (giveAll all d) := by
  induction all generalizing d with
  | nil => exact .refl _ d
  | cons p rest ih => exact (addsRules_give p.1 p.2 d).trans (ih _)

theorem mem_liveSymbols_give : Y ∈ (give X words d).liveSymbols ↔ Y ∈ d.liveSymbols :=
  (addsRules_give X words d).mem_liveSymbols_iff

theorem rules_subset_give (X : SymbolId) (words : List String) (d : Draft) (Y : SymbolId) :
    d.rules Y ⊆ (give X words d).rules Y := by
  obtain ⟨added, hrules, -⟩ := (addsRules_give X words d).rules Y
  exact hrules ▸ List.subset_append_left _ _

theorem mem_rules_give (hX : words ≠ [] → X ∈ d.liveSymbols) : r ∈ (give X words d).rules Y ↔
    r ∈ d.rules Y ∨ Y = X ∧ ∃ word ∈ words, r = stopRule word := by
  induction words generalizing d with
  | nil => simp [give]
  | cons word words ih =>
    have hlive := hX (by simp)
    have hstep := ih (d := d.appendRule X (stopRule word)) fun _ =>
      mem_liveSymbols_appendStop.mpr hlive
    refine hstep.trans ?_
    rw [mem_rules_appendStop hlive]
    simp only [List.mem_cons, exists_eq_or_imp, and_or_left, or_assoc]

/-! ### Words in their order -/

theorem stopRule_inj {w : String} (h : stopRule w = stopRule word) : w = word := by
  simpa [stopRule] using h

theorem rules_appendStop_of_ne (hne : Y ≠ X) :
    (d.appendRule X (stopRule word)).rules Y = d.rules Y := by
  have hadds : Draft.AddsRules (fun Z _ => Z = X) d (d.appendRule X (stopRule word)) :=
    Draft.addsRules_appendRule rfl
  obtain ⟨added, hrules, hadded⟩ := hadds.rules Y
  have hnone : added = [] := List.eq_nil_iff_forall_not_mem.mpr fun r hr => hne (hadded r hr)
  rw [hrules, hnone, List.append_nil]

theorem rules_appendStop (hX : X ∈ d.liveSymbols) (hnew : stopRule word ∉ d.rules X) :
    (d.appendRule X (stopRule word)).rules X = d.rules X ++ [stopRule word] := by
  have hlacks : d.lacks X (stopRule word) = true := by
    cases h : d.lacks X (stopRule word) with
    | true => rfl
    | false => exact absurd (lacks_stopRule_iff.mp h) hnew
  obtain ⟨s, hs⟩ := Draft.mem_liveSymbols_iff.mp hX
  obtain ⟨hget, hlive⟩ := Draft.get?_eq_some_iff.mp hs
  rw [Draft.appendRule, if_pos hlacks, Draft.rules_of_get? hs]
  refine Draft.rules_of_get? (s := { s with rules := s.rules ++ [stopRule word] })
    (Draft.get?_eq_some_iff.mpr ⟨?_, hlive⟩)
  rw [d.getElem?_modifyRules X (· ++ [stopRule word]), hget]
  simp

theorem rules_give_of_ne (hne : Y ≠ X) (words : List String) (d : Draft) :
    (give X words d).rules Y = d.rules Y := by
  induction words generalizing d with
  | nil => rfl
  | cons word words ih => exact (ih _).trans (rules_appendStop_of_ne hne)

open Classical in
/-- The words that are new to the symbol go to the end of its rules. -/
theorem rules_give (hX : X ∈ d.liveSymbols) (hwords : words.Nodup) : (give X words d).rules X =
    d.rules X ++ (words.filter fun word => stopRule word ∉ d.rules X).map stopRule := by
  induction words generalizing d with
  | nil => simp [give]
  | cons word words ih =>
    obtain ⟨hfresh, hrest⟩ := List.nodup_cons.mp hwords
    by_cases hhas : stopRule word ∈ d.rules X
    · rw [List.filter_cons_of_neg (by simpa using hhas), ← ih hX hrest]
      exact congrArg (fun e => (give X words e).rules X) (appendStop_of_mem hhas)
    · have hstep := ih (d := d.appendRule X (stopRule word)) (mem_liveSymbols_appendStop.mpr hX) hrest
      -- what was given just now does not count, since no word stands twice
      have hsame : (words.filter fun w => stopRule w ∉ d.rules X ++ [stopRule word]) =
          words.filter fun w => stopRule w ∉ d.rules X := by
        refine List.filter_congr fun w hw => ?_
        have hne : stopRule w ≠ stopRule word := fun heq => hfresh (stopRule_inj heq ▸ hw)
        rw [decide_eq_decide, List.mem_append, List.mem_singleton, or_iff_left hne]
      rw [rules_appendStop hX hhas, hsame] at hstep
      rw [List.filter_cons_of_pos (by simpa using hhas), List.map_cons]
      exact hstep.trans (List.append_assoc _ _ _)

theorem rules_giveAll_of_not_mem {all : List (SymbolId × List String)} (hY : Y ∉ all.map (·.1))
    (d : Draft) : (giveAll all d).rules Y = d.rules Y := by
  induction all generalizing d with
  | nil => rfl
  | cons p all ih =>
    rw [List.map_cons, List.mem_cons, not_or] at hY
    exact (ih hY.2 _).trans (rules_give_of_ne hY.1 p.2 d)

open Classical in
/-- What is given to one symbol does not change what another is given. -/
theorem rules_giveAll {all : List (SymbolId × List String)}
    (hlive : ∀ p ∈ all, p.1 ∈ d.liveSymbols) (honce : (all.map (·.1)).Nodup)
    (hwords : ∀ p ∈ all, p.2.Nodup) : ∀ p ∈ all, (giveAll all d).rules p.1 =
      d.rules p.1 ++ (p.2.filter fun word => stopRule word ∉ d.rules p.1).map stopRule := by
  induction all generalizing d with
  | nil => simp
  | cons q all ih =>
    rw [List.map_cons, List.nodup_cons] at honce
    obtain ⟨hq, hlive⟩ := List.forall_mem_cons.mp hlive
    obtain ⟨hqwords, hwords⟩ := List.forall_mem_cons.mp hwords
    have hrest := ih (d := give q.1 q.2 d) (fun p hp => mem_liveSymbols_give.mpr (hlive p hp))
      honce.2 hwords
    refine List.forall_mem_cons.mpr ⟨?_, fun p hp => ?_⟩
    · exact (rules_giveAll_of_not_mem honce.1 _).trans (rules_give hq hqwords)
    · have hne : p.1 ≠ q.1 := fun heq => honce.1 (heq ▸ List.mem_map_of_mem hp)
      have hkept := rules_give_of_ne hne q.2 d
      exact hkept ▸ hrest p hp

/-! ### How they are filled -/

theorem perform_fillOne_eq_ok_iff (hwords : ∀ word ∈ words, word ∈ defaults) {u : Unit} :
    (fillOne X words).perform d = (.ok u, e) ↔
      (words ≠ [] → X ∈ d.liveSymbols) ∧ e = give X words d := by
  induction words generalizing d with
  | nil => simp [fillOne, give, List.forM, eq_comm]
  | cons word words ih =>
    have hrest : ∀ w ∈ words, w ∈ defaults := fun w hw => hwords w (List.mem_cons_of_mem _ hw)
    rw [show fillOne X (word :: words) = (Change.call fun d =>
      return ((), ← d.addRule X (.terminal word .silent))) >>= fun _ => fillOne X words from rfl,
      perform_bind_eq_ok_iff]
    simp only [perform_call_eq_ok_iff, ih hrest]
    constructor
    · rintro ⟨_, f, hadd, -, rfl⟩
      obtain ⟨g, hg, heq⟩ := Outcome.ok_of_bind hadd
      obtain ⟨r, hr, happend⟩ := Outcome.ok_of_bind hg
      cases happend
      cases heq
      obtain ⟨hX, rfl⟩ := (ruleOf_stopWord_eq_ok_iff (hwords word (by simp))).mp hr
      exact ⟨fun _ => hX, rfl⟩
    · rintro ⟨hX, rfl⟩
      have hX := hX (by simp)
      have hr := (ruleOf_stopWord_eq_ok_iff (hwords word (by simp))).mpr ⟨hX, rfl⟩
      refine ⟨(), d.appendRule X (stopRule word), ?_, fun _ => mem_liveSymbols_appendStop.mpr hX, rfl⟩
      simp only [Draft.addRule, hr]
      rfl

theorem fillable_cons {p : SymbolId × List String} {rest : List (SymbolId × List String)} :
    Fillable (p :: rest) d ↔
      (p.2 ≠ [] → p.1 ∈ d.liveSymbols) ∧ Fillable rest (give p.1 p.2 d) := by
  simp only [Fillable, List.forall_mem_cons, mem_liveSymbols_give]

theorem mem_rules_giveAll {all : List (SymbolId × List String)} (h : Fillable all d) :
    r ∈ (giveAll all d).rules Y ↔
      r ∈ d.rules Y ∨ ∃ p ∈ all, p.1 = Y ∧ ∃ word ∈ p.2, r = stopRule word := by
  induction all generalizing d with
  | nil => simp [giveAll]
  | cons p rest ih =>
    obtain ⟨hp, hrest⟩ := fillable_cons.mp h
    refine (ih hrest).trans ?_
    rw [mem_rules_give hp]
    simp only [List.mem_cons, exists_eq_or_imp, or_assoc, @eq_comm _ Y]

theorem perform_forM_eq_ok_iff {all : List (SymbolId × List String)}
    (hwords : ∀ p ∈ all, ∀ word ∈ p.2, word ∈ defaults) {u : Unit} :
    (all.forM fun p => fillOne p.1 p.2).perform d = (.ok u, e) ↔
      Fillable all d ∧ e = giveAll all d := by
  induction all generalizing d with
  | nil => simp [giveAll, Fillable, List.forM, eq_comm]
  | cons p rest ih =>
    rw [show ((p :: rest).forM fun p => fillOne p.1 p.2) =
      (fillOne p.1 p.2 >>= fun _ => rest.forM fun p => fillOne p.1 p.2) from rfl,
      perform_bind_eq_ok_iff, fillable_cons]
    simp only [perform_fillOne_eq_ok_iff (hwords p (by simp)),
      ih fun q hq => hwords q (List.mem_cons_of_mem _ hq)]
    constructor
    · rintro ⟨_, _, ⟨hp, rfl⟩, hrest, rfl⟩
      exact ⟨⟨hp, hrest⟩, rfl⟩
    · rintro ⟨⟨hp, hrest⟩, rfl⟩
      exact ⟨(), _, ⟨hp, rfl⟩, hrest, rfl⟩

/-- Stop words can be filled exactly if all symbols that get some are live, and then each gets what was
settled for it. -/
theorem perform_fill_eq_ok_iff {count : Nat} : fill.perform d = (.ok count, e) ↔
    count = d.pendingStopWords.length ∧ Fillable (settled d) d ∧
      e = giveAll (settled d) { d with pendingStopWords := [] } := by
  rw [fill, perform_bind, perform_get]
  dsimp only
  rw [perform_bind, perform_set]
  dsimp only
  change ((settled d).forM (fun p => fillOne p.1 p.2) >>= fun _ => pure (settled d).length).perform
    { d with pendingStopWords := [] } = (.ok count, e) ↔ _
  rw [perform_bind_eq_ok_iff]
  simp only [perform_forM_eq_ok_iff fun p hp => mem_defaults_of_settled hp]
  constructor
  · rintro ⟨_, _, ⟨hlive, rfl⟩, heq⟩
    cases heq
    exact ⟨by simp [settled], hlive, rfl⟩
  · rintro ⟨rfl, hlive, rfl⟩
    exact ⟨(), _, ⟨hlive, rfl⟩, by simp [settled]⟩

/-- The words of all pending symbols are settled on the draft as it was before any was filled. -/
theorem gains_fill {count : Nat} (h : fill.perform d = (.ok count, e)) :
    Draft.Gains (fun X r => ∃ conflicting, (X, conflicting) ∈ d.pendingStopWords ∧
      ∃ w ∈ allowed d conflicting, r = stopRule w) d e := by
  obtain ⟨-, hfillable, rfl⟩ := perform_fill_eq_ok_iff.mp h
  have hadds := addsRules_giveAll (settled d) { d with pendingStopWords := [] }
  refine ⟨fun X => hadds.mem_liveSymbols_iff, hadds.symbolName_eq, fun X r => ?_, ?_, ?_, ?_⟩
  · rw [mem_rules_giveAll (d := { d with pendingStopWords := [] }) hfillable]
    refine or_congr Iff.rfl ⟨?_, ?_⟩
    · rintro ⟨_, hp, rfl, hword⟩
      obtain ⟨q, hq, rfl⟩ := List.mem_map.mp hp
      exact ⟨q.2, hq, hword⟩
    · rintro ⟨conflicting, hmem, hword⟩
      exact ⟨_, List.mem_map_of_mem hmem, rfl, hword⟩
  all_goals rw [hadds.rest]

end QueryGrammar.StopWords
