import QueryGrammar.Proofs.Category.Use
import QueryGrammar.Proofs.Workspace.Again
/-!
A category that is registered first and given a word at some of its attachment points. It can be
finished when there is something to read after its relative pronoun. Otherwise the pronoun, and
without any restriction the connectives as well, are left over, and refused where nothing may be.
-/
namespace QueryGrammar

open Change Conjunction

/-! ### The draft that is finished -/

namespace Symbol

/-- A symbol that has been registered as a word. -/
def IsNewWord (s : Symbol) : Prop := ∃ part rules, WordRules rules ∧ s = word part rules

end Symbol

namespace Category

variable {singular plural stem : String} {isPerson : Bool} {w : LoneWords} {words : List Symbol}
variable {points : List AttachmentPoint}

theorem length_loneSymbols : (loneSymbols singular stem isPerson w).length = 19 := rfl

/-- Words come with rules, and nothing else does. -/
theorem symbol_at (hw : w.Valid) (hwords : ∀ s ∈ words, s.IsNewWord) {X : SymbolId} {s : Symbol}
    (hs : (loneSymbols singular stem isPerson w ++ words)[X.index]? = some s) :
    s.pruned = false ∧ (IsLexical X ∧ WordRules s.rules ∨ ¬ IsLexical X ∧ s.rules = []) := by
  cases role X with
  | start => cases hs; exact ⟨rfl, .inr ⟨by decide, rfl⟩⟩
  | term => cases hs; exact ⟨rfl, .inl ⟨by decide, hw.term⟩⟩
  | point p => cases p <;> cases hs <;> exact ⟨rfl, .inr ⟨by decide, rfl⟩⟩
  | head => cases hs; exact ⟨rfl, .inr ⟨by decide, rfl⟩⟩
  | rhs => cases hs; exact ⟨rfl, .inr ⟨by decide, rfl⟩⟩
  | plural => cases hs; exact ⟨rfl, .inr ⟨by decide, rfl⟩⟩
  | relative => cases hs; exact ⟨rfl, .inl ⟨by decide, hw.relative⟩⟩
  | separator t =>
    cases t with
    | and => cases hs; exact ⟨rfl, .inl ⟨by decide, hw.and⟩⟩
    | or => cases hs; exact ⟨rfl, .inl ⟨by decide, hw.or⟩⟩
    | comma => cases hs; exact ⟨rfl, .inl ⟨by decide, hw.comma⟩⟩
  | family p => cases p <;> cases hs <;> exact ⟨rfl, .inr ⟨by decide, rfl⟩⟩
  | word i =>
    rw [List.getElem?_append_right (Nat.le_add_right 19 i)] at hs
    obtain ⟨part, rules, hrules, rfl⟩ := hwords s (List.mem_of_getElem? hs)
    exact ⟨rfl, .inl ⟨.inr (.inr (Nat.le_add_right 19 i)), hrules⟩⟩

theorem index_rowsWith : ∀ x ∈ rowsWith points, x.1.index < 19 := by
  intro x hx
  simp only [rowsWith, List.mem_append, List.mem_singleton] at hx
  obtain (hx | hx) | rfl := hx
  · have hrows : ∀ x ∈ loneRows, x.1.index < 19 := by decide
    exact hrows x hx
  · obtain ⟨i, p, -, rfl⟩ := mem_attachedRows_iff.mp hx
    have hpoint : ∀ p, (lone.point p).index < 19 := by
      intro p
      cases p <;> decide
    exact hpoint p
  · decide

theorem completed_laid (hw : w.Valid) (hwords : ∀ s ∈ words, s.IsNewWord)
    (hlength : words.length = points.length) :
    Completed isPerson points (.laid (loneSymbols singular stem isPerson w ++ words)
      (loneVocabulary plural) (rowsWith points)) := by
  have hcount : (loneSymbols singular stem isPerson w ++ words).length = 19 + points.length := by
    rw [List.length_append, length_loneSymbols, hlength]
  have hlive : ∀ s ∈ loneSymbols singular stem isPerson w ++ words, s.pruned = false := by
    intro s hs
    obtain ⟨i, hi⟩ := List.mem_iff_getElem?.mp hs
    exact (symbol_at (X := ⟨i⟩) hw hwords hi).1
  constructor
  · intro X
    rw [Draft.mem_liveSymbols_laid_iff hlive, hcount]
  · intro X r hrow
    have hlt : X.index < (loneSymbols singular stem isPerson w ++ words).length :=
      (index_rowsWith _ hrow).trans_le (hcount ▸ Nat.le_add_right 19 _)
    exact (Draft.mem_rules_laid_iff hlive).mpr ⟨_, List.getElem?_eq_getElem hlt, .inr hrow⟩
  · intro X r hr
    obtain ⟨s, hs, hr | hrow⟩ := (Draft.mem_rules_laid_iff hlive).mp hr
    · rcases (symbol_at hw hwords hs).2 with ⟨hlexical, hrules⟩ | ⟨-, hnone⟩
      · exact .inr ⟨hlexical, hrules.parts r hr, hrules.semantic r hr⟩
      · exact absurd (hnone ▸ hr) List.not_mem_nil
    · exact .inl hrow
  · intro X hX hlexical
    have hs := List.getElem?_eq_getElem ((Draft.mem_liveSymbols_laid_iff hlive).mp hX)
    rcases (symbol_at hw hwords hs).2 with ⟨-, hrules⟩ | ⟨hnot, -⟩
    · obtain ⟨r, hr⟩ := List.exists_mem_of_ne_nil _ hrules.ne_nil
      exact ⟨r, (Draft.mem_rules_laid_iff hlive).mpr ⟨_, hs, .inl hr⟩, hrules.parts r hr⟩
    · exact absurd hlexical hnot
  · exact Draft.symbolName_laid (s := .word (relativePart isPerson) w.relative) rfl
  · intro s
    cases s with
    | and => exact Draft.symbolName_laid (s := .word "and" w.and) rfl
    | or => exact Draft.symbolName_laid (s := .word "or" w.or) rfl
    | comma => exact Draft.symbolName_laid (s := .word "comma" w.comma) rfl
  · exact ⟨plural, rfl⟩
  · rfl
  · rfl

/-! ### Finishing -/

theorem leftOver_ne_nil_iff : leftOver isPerson points ≠ [] ↔ ¬ Named points := by
  unfold leftOver
  by_cases hn : Named points
  · simp [hn]
  · rw [if_neg hn]
    split <;> simp [hn]

/-- A category that is complete is finished exactly unless something is left over and may not be,
and the report names what is. -/
theorem Completed.finish {d : Draft} (h : Completed isPerson points d)
    (hpending : d.pendingStopWords = []) (o : Options) :
    ((Draft.finish o).perform d).1.map (·.report.unused) =
      if o.unusedPolicy = .deny ∧ ¬ Named points then
        .error (.unusedComponents (leftOver isPerson points))
      else .ok (leftOver isPerson points) := by
  have hstart : ¬ Draft.start ∉ d.productive :=
    not_not.mpr (Draft.mem_productive_iff.mpr h.expands_start)
  rw [Draft.finish, perform_bind, Draft.fill_of_none hpending]
  simp only [perform_bind, perform_call, Draft.removeUnused_eq, if_neg hstart, h.unusedOf_eq,
    leftOver_ne_nil_iff]
  by_cases hrefused : o.unusedPolicy = .deny ∧ ¬ Named points
  · rw [if_pos hrefused, if_pos hrefused.symm]
    rfl
  · rw [if_neg hrefused, if_neg (mt And.symm hrefused)]
    rfl

end Category

/-! ### Registration -/

namespace Registration

variable {ws ws₁ ws₂ : Workspace} {X : SymbolId}

theorem call_of_ok {α : Type} {f : Draft → Outcome (α × Draft)} {a : α} {e : Draft}
    (h : f ws.draft = .ok (a, e)) : (call f).perform ws = (.ok a, { ws with draft := e }) := by
  rw [call, perform_within, perform_call, h]

theorem isTaken_of_addWord {part : String} {accepted substituted : List String}
    {cost : Option Float} (h : (addWord part accepted substituted cost).perform ws = (.ok X, ws₁)) :
    ws.draft.isTaken (Name.bracketed part) = false := by
  obtain ⟨e, hcall, -⟩ := call_eq_ok h
  obtain ⟨kept, f, -, hnew, -⟩ := Draft.addLexical_eq_ok_iff.mp hcall
  obtain ⟨name, hname, hfree, -⟩ := Draft.newSymbolOf_eq hnew
  rwa [eq_of_symbol hname] at hfree

/-- A word that is accepted somewhere is accepted wherever its name is free. -/
theorem exists_addWord {part : String} {accepted substituted : List String} {cost : Option Float}
    (h : (addWord part accepted substituted cost).perform ws₁ = (.ok X, ws₂))
    (hfree : ws.draft.isTaken (Name.bracketed part) = false) :
    ∃ Y ws', (addWord part accepted substituted cost).perform ws = (.ok Y, ws') := by
  obtain ⟨e, hcall, -⟩ := call_eq_ok h
  obtain ⟨kept, f, hcheck, hnew, -⟩ := Draft.addLexical_eq_ok_iff.mp hcall
  obtain ⟨name, hname, -, -⟩ := Draft.newSymbolOf_eq hnew
  obtain rfl := eq_of_symbol hname
  have hfind : ws.draft.find? (Name.bracketed part) = none := by
    rw [Draft.find?, Option.map_eq_none_iff, List.findIdx?_eq_none_iff]
    intro s hs
    have hother : (s.name == Name.bracketed part) = false := by
      simpa using List.any_eq_false.mp hfree s hs
    rw [hother, Bool.false_and]
  have hpart : Name.symbol [part] = .ok (Name.bracketed part) := hname
  have hsymbol : ws.draft.newSymbolOf true [part] =
      .ok (ws.draft.appendSymbol { name := Name.bracketed part, isTermSequence := true }) := by
    simp only [Draft.newSymbolOf, hpart, hfree, bind, Except.bind, Bool.false_eq_true, if_false]
    rfl
  exact ⟨_, _, call_of_ok (Draft.addLexical_eq_ok_iff.mpr
    ⟨kept, _, Draft.checkLexical_of_free hcheck hfind, hsymbol, rfl⟩)⟩

/-- A rule over one symbol is accepted for every symbol but a word. -/
theorem exists_addUnary {part : SymbolId} {owner s : Symbol} (howner : ws.draft.get? X = some owner)
    (hany : owner.isTermSequence = false) (hpart : ws.draft.get? part = some s) :
    ∃ ws', (addRule X (.unary part)).perform ws = (.ok (), ws') := by
  obtain ⟨r, hr⟩ := Draft.ruleOf_of_plain (Proposal.plain_unary part) howner hany
    (by simpa using ⟨s, hpart⟩) (by simp [Proposal.unary])
  have hadd : (do return ((), ← ws.draft.addRule X (.unary part)) : Outcome (Unit × Draft)) =
      .ok ((), ws.draft.appendRule X r) := by
    simp only [Draft.addRule, hr, bind, Except.bind, pure, Except.pure]
  unfold addRule update
  exact ⟨_, call_of_ok hadd⟩

end Registration

namespace Category

/-- A word that is registered to be attached. -/
structure NewWord where
  part : String
  accepted : List String
  substituted : List String := []
  insertionCost : Option Float := none

def NewWord.register (w : NewWord) : Registration SymbolId :=
  Registration.addWord w.part w.accepted w.substituted w.insertionCost

/-- Gives attachment points a rule each that reads a new word. -/
def extend (c : Category) (extensions : List (AttachmentPoint × NewWord)) : Registration Unit :=
  extensions.forM fun x => do
    Registration.addRule (c.point x.1) (.unary (← x.2.register))

variable {singular plural stem : String} {isPerson : Bool} {w : LoneWords}

/-- The category is registered and the points that are listed have been given words. -/
structure Attached (singular plural stem : String) (isPerson : Bool) (w : LoneWords)
    (points : List AttachmentPoint) (words : List Symbol) (ws : Workspace) : Prop where
  draft : ws.draft = .laid (loneSymbols singular stem isPerson w ++ words) (loneVocabulary plural)
    (loneRows ++ attachedRows points)
  length : words.length = points.length
  words : ∀ s ∈ words, s.IsNewWord

theorem attachedRows_concat (points : List AttachmentPoint) (p : AttachmentPoint) :
    attachedRows (points ++ [p]) = attachedRows points ++ [(lone.point p,
      (Proposal.unary ⟨19 + points.length⟩).unaryRule ⟨19 + points.length⟩)] := by
  simp [attachedRows, List.mapIdx_append]

/-- One more point is given a word. -/
theorem Attached.step {points : List AttachmentPoint} {words : List Symbol} {ws ws₁ ws₂ : Workspace}
    (h : Attached singular plural stem isPerson w points words ws) {X : SymbolId}
    {p : AttachmentPoint} {new : NewWord} (hp : p ∉ points)
    (haccepted : new.register.perform ws₁ = (.ok X, ws₂))
    (hfree : ws.draft.isTaken (Name.bracketed new.part) = false) :
    ∃ rules ws', ((do Registration.addRule (lone.point p) (.unary (← new.register))) :
        Registration Unit).perform ws = (.ok (), ws') ∧
      Attached singular plural stem isPerson w (points ++ [p]) (words ++ [.word new.part rules])
        ws' := by
  obtain ⟨Y, wsY, hregistered⟩ := Registration.exists_addWord haccepted hfree
  obtain ⟨rules, hrules, rfl, rfl⟩ := Registration.addWord_eq_ok hregistered
  have hcount : (loneSymbols singular stem isPerson w ++ words).length = 19 + points.length := by
    rw [List.length_append, length_loneSymbols, h.length]
  have hindex : ws.draft.symbols.length = 19 + points.length := by
    rw [h.draft, Draft.length_laid, hcount]
  have hrows : ∀ x ∈ loneRows ++ attachedRows points,
      x.1.index < (loneSymbols singular stem isPerson w ++ words).length := fun x hx =>
    (index_rowsWith x (List.mem_append_left _ hx)).trans_le (hcount ▸ Nat.le_add_right 19 _)
  have hlaid := Workspace.withWord_laid h.draft hrows new.part rules
  obtain ⟨owner, howner, hplain⟩ : ∃ owner : Symbol,
      (loneSymbols singular stem isPerson w ++ words ++
        [.word new.part rules])[(lone.point p).index]? = some owner ∧
      owner.pruned = false ∧ owner.isTermSequence = false ∧ owner.rules = [] := by
    cases p <;> exact ⟨_, rfl, rfl, rfl, rfl⟩
  have hlast : (loneSymbols singular stem isPerson w ++ words ++
      [.word new.part rules])[19 + points.length]? = some (.word new.part rules) := by
    rw [← hcount, List.getElem?_concat_length]
  have hpoint := Draft.get?_of_eq_laid hlaid howner hplain.1
  have hword := Draft.get?_of_eq_laid (X := ⟨ws.draft.symbols.length⟩) hlaid (hindex ▸ hlast) rfl
  obtain ⟨ws', hrule⟩ := Registration.exists_addUnary hpoint hplain.2.1 hword
  refine ⟨rules, ws', ?_, ?_, ?_, ?_⟩
  · exact perform_bind_eq_ok_iff.mpr ⟨_, _, hregistered, hrule⟩
  · have hnew := Workspace.addUnary_laid hlaid rfl howner hplain.1 ?_ hrule
    · rw [hnew, hindex, attachedRows_concat, List.append_assoc, List.append_assoc]
    · have hnone : rowsOf (loneRows ++ attachedRows points) (lone.point p) = [] :=
        rowsOf_eq_nil fun x hx => ne_point_of_mem_rows hp x (List.mem_append_left _ hx)
      rw [hplain.2.2, hnone]
      rfl
  · simp [h.length]
  · intro s hs
    rcases List.mem_append.mp hs with hs | hs
    · exact h.words s hs
    · exact ⟨new.part, rules, hrules, List.mem_singleton.mp hs⟩

theorem Attached.isTaken_iff {points : List AttachmentPoint} {words : List Symbol} {ws : Workspace}
    (h : Attached singular plural stem isPerson w points words ws) {name : String} :
    ws.draft.isTaken name = true ↔
      name ∈ (loneSymbols singular stem isPerson w ++ words).map (·.name) := by
  rw [h.draft, Draft.isTaken_laid_iff]

/-- Whatever order the points are given their words in, each is accepted. -/
theorem Attached.extend {points : List AttachmentPoint} {words : List Symbol} {ws ws₁ : Workspace}
    (h : Attached singular plural stem isPerson w points words ws)
    {extensions : List (AttachmentPoint × NewWord)}
    (hpoints : (points ++ extensions.map Prod.fst).Nodup)
    (hparts : (extensions.map (·.2.part)).Nodup)
    (haccepted : ∀ x ∈ extensions, ∃ X ws₂, x.2.register.perform ws₁ = (.ok X, ws₂))
    (hfree : ∀ x ∈ extensions, ws.draft.isTaken (Name.bracketed x.2.part) = false) :
    ∃ words' ws', (lone.extend extensions).perform ws = (.ok (), ws') ∧
      Attached singular plural stem isPerson w (points ++ extensions.map Prod.fst) words' ws' := by
  induction extensions generalizing points words ws with
  | nil => exact ⟨words, ws, rfl, by simpa using h⟩
  | cons x extensions ih =>
    obtain ⟨⟨X, ws₂, hx⟩, haccepted⟩ := List.forall_mem_cons.mp haccepted
    obtain ⟨hxfree, hfree⟩ := List.forall_mem_cons.mp hfree
    rw [List.map_cons, List.nodup_cons] at hparts
    rw [List.map_cons, List.append_cons] at hpoints ⊢
    have hp : x.1 ∉ points := by
      have hfirst := hpoints.sublist (List.sublist_append_left _ _)
      simpa using (List.nodup_append.mp hfirst).2.2 x.1
    obtain ⟨rules, ws', hperform, hattached⟩ := h.step hp hx hxfree
    have hstill : ∀ y ∈ extensions, ws'.draft.isTaken (Name.bracketed y.2.part) = false := by
      intro y hy
      have hold := mt h.isTaken_iff.mpr (Bool.eq_false_iff.mp (hfree y hy))
      have hother : Name.bracketed y.2.part ≠ Name.bracketed x.2.part := by
        intro heq
        rw [← Name.bracketed_injective heq] at hparts
        exact hparts.1 (List.mem_map_of_mem hy)
      refine Bool.eq_false_iff.mpr (mt hattached.isTaken_iff.mp ?_)
      rw [← List.append_assoc, List.map_append, List.mem_append]
      exact not_or.mpr ⟨hold, by simpa [Symbol.word] using hother⟩
    obtain ⟨words', ws'', hrest, hdone⟩ := ih hattached hpoints hparts.2 haccepted hstill
    refine ⟨words', ws'', ?_, hdone⟩
    exact perform_bind_eq_ok_iff.mpr ⟨(), ws', hperform, hrest⟩

/-- The start symbol can read the plural, and then all rules are there. -/
theorem Attached.start {points : List AttachmentPoint} {words : List Symbol} {ws : Workspace}
    (h : Attached singular plural stem isPerson w points words ws) :
    ∃ ws', (Registration.addRule Draft.start (.unary lone.plural)).perform ws = (.ok (), ws') ∧
      ws'.draft = .laid (loneSymbols singular stem isPerson w ++ words) (loneVocabulary plural)
        (rowsWith points) := by
  have hnone : rowsOf (loneRows ++ attachedRows points) Draft.start = [] := by
    refine rowsOf_eq_nil fun x hx => ?_
    rcases List.mem_append.mp hx with hx | hx
    · have hrows : ∀ x ∈ loneRows, x.1 ≠ Draft.start := by decide
      exact hrows x hx
    · obtain ⟨i, p, -, rfl⟩ := mem_attachedRows_iff.mp hx
      exact point_ne_start p
  have howner := Draft.get?_of_eq_laid (X := Draft.start) h.draft rfl rfl
  have hplural := Draft.get?_of_eq_laid (X := lone.plural) h.draft rfl rfl
  obtain ⟨ws', hrule⟩ := Registration.exists_addUnary howner rfl hplural
  refine ⟨ws', hrule, Workspace.addUnary_laid h.draft rfl rfl rfl ?_ hrule⟩
  rw [hnone]
  rfl

end Category

open Category Registration

/-- A category without instances that is registered first can be given words at any of its attachment
points, and the start symbol can read its plural. Where nothing may be left over, this is finished
exactly if the subject filter or the object filter has been given a word. Otherwise the relative
pronoun is left over, as nothing is read after it, and if there is no restriction at all then so are
the connectives and their semantics. -/
theorem finish_extended {spec : CategoryWords} {c : Category} {ws : Workspace}
    {extensions : List (AttachmentPoint × NewWord)} (hentities : spec.entities = [])
    (hcategory : (Workspace.category spec).perform {} = (.ok c, ws))
    (hpoints : (extensions.map Prod.fst).Nodup) (hparts : (extensions.map (·.2.part)).Nodup)
    (hwords : ∀ x ∈ extensions, ∃ X ws', x.2.register.perform ws = (.ok X, ws')) :
    ∃ ws', (do
        c.extend extensions
        addRule Draft.start (.unary c.plural) : Registration Unit).perform ws = (.ok (), ws') ∧
      ∀ o : Options, ((Draft.finish o).perform ws'.draft).1.map (·.report.unused) =
        if o.unusedPolicy = .deny ∧ ¬ Named (extensions.map Prod.fst) then
          .error (.unusedComponents (leftOver spec.isPerson (extensions.map Prod.fst)))
        else .ok (leftOver spec.isPerson (extensions.map Prod.fst)) := by
  obtain ⟨rfl, stem, w, hw, hdraft⟩ := category_lone hentities hcategory
  have hstart : Attached (Name.slug spec.singular) (Name.slug spec.plural) stem spec.isPerson w [] []
      ws := ⟨by rw [hdraft, List.append_nil]; rfl, rfl, by simp⟩
  have hfree : ∀ x ∈ extensions, ws.draft.isTaken (Name.bracketed x.2.part) = false := by
    intro x hx
    obtain ⟨X, ws', hword⟩ := hwords x hx
    exact isTaken_of_addWord hword
  obtain ⟨words, ws₁, hextend, hattached⟩ := hstart.extend hpoints hparts hwords hfree
  rw [List.nil_append] at hattached
  obtain ⟨ws', hrule, hcompleted⟩ := hattached.start
  refine ⟨ws', perform_bind_eq_ok_iff.mpr ⟨(), ws₁, hextend, hrule⟩, fun o => ?_⟩
  rw [hcompleted]
  exact (completed_laid hw hattached.words hattached.length).finish rfl o

/-- Users, for a category. -/
def userWords : CategoryWords := { singular := "user", plural := "users" }

/-- A word for active users. -/
def activeWord : NewWord := { part := "active", accepted := ["active"] }

theorem finish_extended_users : ∃ (c : Category) (ws ws' : Workspace),
    (Workspace.category userWords).perform {} = (.ok c, ws) ∧
    (do
      c.extend [(.objFilter, activeWord)]
      addRule Draft.start (.unary c.plural) : Registration Unit).perform ws = (.ok (), ws') ∧
    ∀ o : Options, ((Draft.finish o).perform ws'.draft).1.map (·.report.unused) = .ok [] := by
  obtain ⟨X, ws₁, hboth⟩ := exists_perform_of_isOk (show ((do
    let _ ← Workspace.category userWords
    activeWord.register).perform {}).1.isOk = true by decide +kernel)
  obtain ⟨c, ws, hcategory, hword⟩ := perform_bind_eq_ok_iff.mp hboth
  have hwords : ∀ x ∈ [(AttachmentPoint.objFilter, activeWord)],
      ∃ X ws', x.2.register.perform ws = (.ok X, ws') := by
    intro x hx
    rw [List.mem_singleton.mp hx]
    exact ⟨X, ws₁, hword⟩
  have hnamed : Named [.objFilter] := .inr List.mem_cons_self
  obtain ⟨ws', hperform, hfinish⟩ := @finish_extended userWords c ws [(.objFilter, activeWord)] rfl
    hcategory (List.nodup_singleton _) (List.nodup_singleton _) hwords
  refine ⟨c, ws, ws', hcategory, hperform, fun o => ?_⟩
  rw [hfinish o, if_neg fun hrefused => hrefused.2 hnamed, leftOver]
  exact congrArg Except.ok (if_pos hnamed)

/-- The users alone, as all there is to read. -/
def onlyUsers : Registration Unit := do
  let c ← Workspace.category userWords
  addRule Draft.start (.unary c.plural)

/-- With empty attachment points only, a category that is all there is to read is refused. -/
theorem exists_category_left_over : ∃ (c : Category) (ws ws' : Workspace),
    (Workspace.category userWords).perform {} = (.ok c, ws) ∧
    (addRule Draft.start (.unary c.plural)).perform ws = (.ok (), ws') ∧
    ((Draft.finish {}).perform ws'.draft).1 = .error (.unusedComponents
      ["[and]", "[comma]", "[or]", "[that]", "intersect", "union"]) := by
  obtain ⟨a, ws', hboth⟩ := exists_perform_of_isOk
    (show (onlyUsers.perform {}).1.isOk = true by decide +kernel)
  have hnames : (match ((Draft.finish {}).perform (onlyUsers.perform {}).2.draft).1 with
      | .error (.unusedComponents names) =>
        names == ["[and]", "[comma]", "[or]", "[that]", "intersect", "union"]
      | _ => false) = true := by
    decide +kernel
  obtain ⟨c, ws, hcategory, hrule⟩ := perform_bind_eq_ok_iff.mp hboth
  refine ⟨c, ws, ws', hcategory, hrule, ?_⟩
  rw [hboth] at hnames
  split at hnames
  next names heq => rw [heq, beq_iff_eq.mp hnames]
  next => cases hnames

end QueryGrammar
