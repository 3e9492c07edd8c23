import QueryGrammar.Proofs.Category.Decided
import QueryGrammar.Proofs.Draft.Laid
import QueryGrammar.Proofs.Draft.Occurrences
/-!
A category that is registered first. Its symbols have known numbers and its rules are known, but for
the forms of its words; both are laid out here as a table.
-/
namespace QueryGrammar

open Change Conjunction

/-- The rules of a word: at least one, and each reads a term and means nothing. -/
structure WordRules (rules : List Rule) : Prop where
  ne_nil : rules ≠ []
  parts : ∀ r ∈ rules, r.expansion.parts = []
  semantic : ∀ r ∈ rules, r.semantic = none

/-! ### What accepted calls have done -/

/-- The workspace with one more word. -/
def Workspace.withWord (ws : Workspace) (part : String) (rules : List Rule) : Workspace :=
  { ws with draft := (ws.draft.appendSymbol (.word part rules)).2 }

namespace Registration

variable {ws ws' : Workspace} {X : SymbolId} {a : Unit}

theorem addWord_eq_ok {part : String} {accepted substituted : List String} {cost : Option Float}
    (h : (addWord part accepted substituted cost).perform ws = (.ok X, ws')) :
    ∃ rules, WordRules rules ∧ X = ⟨ws.draft.symbols.length⟩ ∧ ws' = ws.withWord part rules := by
  obtain ⟨e, hcall, rfl⟩ := call_eq_ok h
  let request : LexicalRequest := .word part accepted substituted cost
  obtain ⟨name, hname, happended, x, hx, -⟩ := request.registered_of_register hcall
  obtain ⟨rfl, rfl⟩ := Prod.mk.inj happended
  rw [eq_of_symbol hname]
  refine ⟨request.kept.map (LexicalEntry.toRule none), ⟨?_, ?_, ?_⟩, rfl, rfl⟩
  · exact List.ne_nil_of_mem (List.mem_map_of_mem hx)
  · simp [LexicalEntry.toRule, Expansion.parts]
  · simp [LexicalEntry.toRule]

theorem newSymbol_eq {part : String} (h : (newSymbol [part]).perform ws = (.ok X, ws')) :
    X = ⟨ws.draft.symbols.length⟩ ∧ ws' = ws.withSymbol part := by
  obtain ⟨hX, hws'⟩ := newSymbol_eq_ok (congrArg Prod.fst h)
  exact ⟨hX, (congrArg Prod.snd h).symm.trans hws'⟩

theorem newSemantic_eq_ok {definition : Semantic} {id : SemanticId}
    (h : (call (·.newSemantic definition)).perform ws = (.ok id, ws')) :
    id = ⟨ws.draft.vocabulary.size⟩ ∧ ws' = { ws with draft := { ws.draft with
      vocabulary := ⟨ws.draft.vocabulary.definitions ++ [definition]⟩ } } := by
  obtain ⟨e, hcall, rfl⟩ := call_eq_ok h
  obtain ⟨-, heq⟩ := Draft.newSemantic_eq hcall
  obtain ⟨rfl, rfl⟩ := Prod.mk.inj heq
  exact ⟨rfl, rfl⟩

theorem addUnary_eq_ok {p : Proposal} {part : SymbolId} (hrhs : p.rhs = .symbols [part])
    (h : (addRule X p).perform ws = (.ok a, ws')) :
    ws' = { ws with draft := ws.draft.appendRule X (p.unaryRule part) } := by
  unfold addRule at h
  obtain ⟨e, hadd, rfl⟩ := update_eq_ok h
  obtain ⟨r, hr, heq⟩ := Outcome.ok_of_bind hadd
  cases heq
  rw [Draft.eq_unary_of_ruleOf hrhs hr]

theorem addBinary_eq_ok {p : Proposal} {first second : SymbolId}
    (hrhs : p.rhs = .symbols [first, second])
    (h : (addBinaryRule X p).perform ws = (.ok a, ws')) :
    ws' = { ws with draft := ws.draft.appendRule X (p.binaryRule first second) } := by
  unfold addBinaryRule at h
  obtain ⟨e, hadd, rfl⟩ := update_eq_ok h
  obtain ⟨r, hr, heq⟩ := Outcome.ok_of_bind (addRule_of_addBinaryRule hadd)
  cases heq
  rw [Draft.eq_binary_of_ruleOf hrhs hr]

end Registration

namespace Workspace

open Registration

variable {ws ws' : Workspace}

/-- What the connectives are when they are registered. -/
theorem connectivesOnce_new {c : Connectives} (hnew : ws.connectives = none)
    (h : connectivesOnce.perform ws = (.ok c, ws')) :
    ∃ and or comma, WordRules and ∧ WordRules or ∧ WordRules comma ∧
      c = ⟨⟨ws.draft.symbols.length⟩, ⟨ws.draft.symbols.length + 1⟩, ⟨ws.draft.symbols.length + 2⟩,
        ⟨ws.draft.vocabulary.size⟩, ⟨ws.draft.vocabulary.size + 1⟩⟩ ∧
      ws'.draft = { ws.draft with
        symbols := ws.draft.symbols ++ [.word "and" and, .word "or" or, .word "comma" comma]
        vocabulary := ⟨ws.draft.vocabulary.definitions ++
          [.function intersectName 1 maxOperands, .function unionName 1 maxOperands]⟩ } := by
  unfold connectivesOnce at h
  simp only [perform_get_bind, hnew, perform_ofOutcome_bind_eq_ok_iff] at h
  obtain ⟨_, -, h⟩ := h
  obtain ⟨_, _, hand, h⟩ := perform_bind_eq_ok_iff.mp h
  obtain ⟨_, _, hor, h⟩ := perform_bind_eq_ok_iff.mp h
  obtain ⟨_, _, hcomma, h⟩ := perform_bind_eq_ok_iff.mp h
  obtain ⟨_, _, hintersect, h⟩ := perform_bind_eq_ok_iff.mp h
  obtain ⟨_, _, hunion, h⟩ := perform_bind_eq_ok_iff.mp h
  obtain ⟨and, hrules, rfl, rfl⟩ := addWord_eq_ok hand
  obtain ⟨or, hrules', rfl, rfl⟩ := addWord_eq_ok hor
  obtain ⟨comma, hrules'', rfl, rfl⟩ := addWord_eq_ok hcomma
  obtain ⟨rfl, rfl⟩ := newSemantic_eq_ok hintersect
  obtain ⟨rfl, rfl⟩ := newSemantic_eq_ok hunion
  cases h
  refine ⟨and, or, comma, hrules, hrules', hrules'', ?_, ?_⟩
  · simp [withWord, Draft.appendSymbol, Vocabulary.size]
  · simp [withWord, Draft.appendSymbol]

/-- What the relative pronoun is when it is registered. -/
theorem relativePronoun_new {isPerson : Bool} {X : SymbolId} (hnew : ws.relative isPerson = none)
    (h : (relativePronoun isPerson).perform ws = (.ok X, ws')) :
    ∃ rules, WordRules rules ∧ X = ⟨ws.draft.symbols.length⟩ ∧
      ws'.draft = (ws.withWord (Category.relativePart isPerson) rules).draft ∧
      ws'.connectives = ws.connectives ∧ ws'.families = ws.families := by
  rw [relativePronoun_eq, Registration.wordOnce] at h
  simp only [perform_get_bind, hnew] at h
  obtain ⟨_, _, hword, h⟩ := perform_bind_eq_ok_iff.mp h
  obtain ⟨rules, hrules, rfl, rfl⟩ := addWord_eq_ok hword
  cases h
  refine ⟨rules, hrules, rfl, ?_⟩
  cases isPerson with
  | true => exact ⟨rfl, rfl, rfl⟩
  | false => exact ⟨rfl, rfl, rfl⟩

end Workspace

namespace Conjunction.Family

variable {f : Family}

theorem distinct_additions (hf : f.Separate) :
    f.additions.Pairwise fun x y => x.1 = y.1 → (y.2 == x.2) = false := by
  refine List.pairwise_flatMap.mpr ⟨fun p _ => ?_, ?_⟩
  · refine List.pairwise_map.mpr ((nodup_rules hf p).imp_of_mem fun {q r} hq hr hne _ => ?_)
    refine Bool.eq_false_of_not_eq_true fun heq => hne ?_
    exact (Rule.eq_of_beq (unsigned_rules hr) (unsigned_rules hq) heq).symm
  · have hnodup : Part.all.Nodup := by decide
    refine hnodup.imp fun {p q} hne x hx y hy heq => ?_
    obtain ⟨_, -, rfl⟩ := List.mem_map.mp hx
    obtain ⟨_, -, rfl⟩ := List.mem_map.mp hy
    exact absurd (hf.symbols heq) hne

end Conjunction.Family

section

open Registration

variable {ws ws' : Workspace} {symbols : List Symbol} {v : Vocabulary}
variable {rows : List (SymbolId × Rule)} {X : SymbolId} {a : Unit} {p : Proposal} {s : Symbol}

theorem Workspace.withWord_laid (hws : ws.draft = .laid symbols v rows)
    (hrows : ∀ x ∈ rows, x.1.index < symbols.length) (part : String) (rules : List Rule) :
    (ws.withWord part rules).draft = .laid (symbols ++ [.word part rules]) v rows := by
  rw [withWord, hws, Draft.appendSymbol, Draft.symbols_laid_append hrows]
  rfl

theorem Workspace.withSymbols_laid (hws : ws.draft = .laid symbols v rows)
    (hrows : ∀ x ∈ rows, x.1.index < symbols.length) (parts : List String) :
    (ws.withSymbols parts).draft = .laid (symbols ++ parts.map .plain) v rows := by
  have hsymbols := Draft.symbols_laid_append (v := v) hrows (parts.map .plain)
  rw [withSymbols_eq, hws]
  exact congrArg (fun symbols => { Draft.laid [] v [] with symbols := symbols }) hsymbols

theorem Workspace.addUnary_laid (hws : ws.draft = .laid symbols v rows) {part : SymbolId}
    (hrhs : p.rhs = .symbols [part]) (hs : symbols[X.index]? = some s) (hlive : s.pruned = false)
    (hnew : (s.rules ++ rowsOf rows X).contains (p.unaryRule part) = false)
    (h : (addRule X p).perform ws = (.ok a, ws')) :
    ws'.draft = .laid symbols v (rows ++ [(X, p.unaryRule part)]) := by
  obtain rfl := addUnary_eq_ok hrhs h
  rw [hws, Draft.appendRule_laid hs hlive hnew]

theorem Workspace.addBinary_laid (hws : ws.draft = .laid symbols v rows) {first second : SymbolId}
    (hrhs : p.rhs = .symbols [first, second]) (hs : symbols[X.index]? = some s)
    (hlive : s.pruned = false)
    (hnew : (s.rules ++ rowsOf rows X).contains (p.binaryRule first second) = false)
    (h : (addBinaryRule X p).perform ws = (.ok a, ws')) :
    ws'.draft = .laid symbols v (rows ++ [(X, p.binaryRule first second)]) := by
  obtain rfl := addBinary_eq_ok hrhs h
  rw [hws, Draft.appendRule_laid hs hlive hnew]

/-- A workspace without conjunctions whose draft is laid out like this. -/
structure Workspace.Laid (ws : Workspace) (symbols : List Symbol) (v : Vocabulary)
    (rows : List (SymbolId × Rule)) : Prop where
  draft : ws.draft = .laid symbols v rows
  connectives : ws.connectives = none
  families : ws.families = []

namespace Workspace.Laid

theorem addUnary (hws : ws.Laid symbols v rows) {part : SymbolId} (hrhs : p.rhs = .symbols [part])
    (hs : symbols[X.index]? = some s) (hlive : s.pruned = false)
    (hnew : (s.rules ++ rowsOf rows X).contains (p.unaryRule part) = false)
    (h : (addRule X p).perform ws = (.ok a, ws')) :
    ws'.Laid symbols v (rows ++ [(X, p.unaryRule part)]) where
  draft := addUnary_laid hws.draft hrhs hs hlive hnew h
  connectives := by
    rw [addUnary_eq_ok hrhs h]
    exact hws.connectives
  families := by
    rw [addUnary_eq_ok hrhs h]
    exact hws.families

theorem addBinary (hws : ws.Laid symbols v rows) {first second : SymbolId}
    (hrhs : p.rhs = .symbols [first, second]) (hs : symbols[X.index]? = some s)
    (hlive : s.pruned = false)
    (hnew : (s.rules ++ rowsOf rows X).contains (p.binaryRule first second) = false)
    (h : (addBinaryRule X p).perform ws = (.ok a, ws')) :
    ws'.Laid symbols v (rows ++ [(X, p.binaryRule first second)]) where
  draft := addBinary_laid hws.draft hrhs hs hlive hnew h
  connectives := by
    rw [addBinary_eq_ok hrhs h]
    exact hws.connectives
  families := by
    rw [addBinary_eq_ok hrhs h]
    exact hws.families

theorem relativePronoun (hws : ws.Laid symbols v rows)
    (hrows : ∀ x ∈ rows, x.1.index < symbols.length)
    {isPerson : Bool} (hnew : ws.relative isPerson = none)
    (h : (Workspace.relativePronoun isPerson).perform ws = (.ok X, ws')) :
    ∃ rules, WordRules rules ∧ X = ⟨symbols.length⟩ ∧
      ws'.Laid (symbols ++ [.word (Category.relativePart isPerson) rules]) v rows := by
  obtain ⟨rules, hrules, rfl, hdraft, hconnectives, hfamilies⟩ := relativePronoun_new hnew h
  refine ⟨rules, hrules, by rw [hws.draft, Draft.length_laid], ?_, ?_, ?_⟩
  · rw [hdraft, withWord_laid hws.draft hrows]
  · exact hconnectives.trans hws.connectives
  · exact hfamilies.trans hws.families

end Workspace.Laid

end

/-! ### The category -/

namespace Category

/-- The rules of the words that come with a category. -/
structure LoneWords where
  term : List Rule
  relative : List Rule
  and : List Rule
  or : List Rule
  comma : List Rule

structure LoneWords.Valid (w : LoneWords) : Prop where
  term : WordRules w.term
  relative : WordRules w.relative
  and : WordRules w.and
  or : WordRules w.or
  comma : WordRules w.comma

/-- The category that is registered first, without instances. -/
def lone : Category where
  term := ⟨1⟩
  adjective := ⟨2⟩
  head := ⟨3⟩
  subjFilter := ⟨4⟩
  objFilter := ⟨5⟩
  passive := ⟨6⟩
  rhs := ⟨7⟩
  plural := ⟨8⟩
  rhsPlus := ⟨13⟩
  all := ⟨0⟩
  entityCategory := none
  entity := none
  possessive := none

/-- The relative pronoun. -/
def loneRelative : SymbolId := ⟨9⟩

def loneConnectives : Connectives := ⟨⟨10⟩, ⟨11⟩, ⟨12⟩, ⟨1⟩, ⟨2⟩⟩

/-- The conjunctions of the restrictions. -/
def loneFamily : Family := .next lone.rhs loneConnectives 13

/-- The start symbol and what is registered for the category alone. -/
def ownSymbolsOf (singular : String) (term : List Rule) : List Symbol :=
  [{ name := Draft.startName }, .word (part singular "term") term,
    .plain (part singular "adjective"), .plain (part singular "head"),
    .plain (part singular "subj-filter"), .plain (part singular "obj-filter"),
    .plain (part singular "passive"), .plain (part singular "rhs"), .plain (part singular "plural")]

/-- All symbols, those of the conjunctions being named after the restrictions. -/
def loneSymbols (singular stem : String) (isPerson : Bool) (w : LoneWords) : List Symbol :=
  ownSymbolsOf singular w.term ++ [.word (relativePart isPerson) w.relative, .word "and" w.and,
    .word "or" w.or, .word "comma" w.comma] ++ (nameParts stem).map Symbol.plain

def loneVocabulary (plural : String) : Vocabulary :=
  ⟨[.argument ("all-" ++ plural), .function intersectName 1 maxOperands,
    .function unionName 1 maxOperands]⟩

def headRows : List (SymbolId × Rule) :=
  [(lone.head, (Proposal.unary lone.term).unaryRule lone.term),
    (lone.head, (Proposal.binary lone.adjective lone.term).binaryRule lone.adjective lone.term)]

def rhsRows : List (SymbolId × Rule) :=
  [(lone.rhs, (Proposal.binary loneRelative lone.subjFilter).binaryRule loneRelative lone.subjFilter),
    (lone.rhs, (Proposal.unary lone.objFilter).unaryRule lone.objFilter),
    (lone.rhs, ((Proposal.binary loneRelative lone.objFilter).closing [0]).binaryRule loneRelative
      lone.objFilter),
    (lone.rhs, (Proposal.unary lone.passive).unaryRule lone.passive)]

def pluralRows : List (SymbolId × Rule) :=
  [(lone.plural, ((Proposal.unary lone.head).fixed [.mk lone.all []]).unaryRule lone.head),
    (lone.plural, (Proposal.binary lone.head lone.rhsPlus).binaryRule lone.head lone.rhsPlus)]

def loneRows : List (SymbolId × Rule) := headRows ++ rhsRows ++ loneFamily.additions ++ pluralRows

theorem separate_loneFamily : loneFamily.Separate where
  symbols p q h := Family.index_injective (Nat.add_left_cancel (congrArg SymbolId.index h))
  operand p := by cases p <;> decide
  separators s p := by cases s <;> cases p <;> decide
  distinct s t := by cases s <;> cases t <;> decide
  functions := by decide

/-- What a category leaves that is registered first. -/
def loneDraft (singular plural stem : String) (isPerson : Bool) (w : LoneWords) : Draft :=
  .laid (loneSymbols singular stem isPerson w) (loneVocabulary plural) loneRows

end Category

open Category Registration Workspace

variable {singular plural : String} {isPerson : Bool} {c : Category} {ws ws' : Workspace}

theorem categoryRules_lone {entities : List String} {term : List Rule} (hterm : WordRules term)
    (hws : ws.Laid (ownSymbolsOf singular term) ⟨[.argument ("all-" ++ plural)]⟩ [])
    (hrelative : ws.relative isPerson = none)
    (h : (categoryRules singular isPerson false entities (ownSymbols .empty)).perform ws =
      (.ok c, ws')) :
    c = lone ∧ ∃ stem w, w.Valid ∧ ws'.draft = loneDraft singular plural stem isPerson w := by
  unfold categoryRules at h
  simp only [perform_bind_eq_ok_iff] at h
  obtain ⟨_, ws₁, h₁, _, ws₂, h₂, X, ws₃, h₃, _, ws₄, h₄, _, ws₅, h₅, _, ws₆, h₆, _, ws₇, h₇,
    root, ws₈, h₈, forest, ws₉, h₉, _, ws₁₀, h₁₀, _, ws₁₁, h₁₁, h⟩ := h
  have hrows : (∀ x ∈ headRows, x.1.index < 9) ∧ ∀ x ∈ headRows ++ rhsRows, x.1.index < 10 := by
    decide
  have hhead : ws₂.Laid (ownSymbolsOf singular term) _ headRows :=
    (hws.addUnary rfl rfl rfl rfl h₁).addBinary rfl rfl rfl rfl h₂
  have hnew : ws₂.relative isPerson = none := by
    rw [addBinary_eq_ok rfl h₂, addUnary_eq_ok rfl h₁]
    cases isPerson <;> exact hrelative
  obtain ⟨relative, hwords, rfl, hword⟩ := hhead.relativePronoun hrows.1 hnew h₃
  have hrhs : ws₇.Laid (ownSymbolsOf singular term ++ [.word (relativePart isPerson) relative]) _
      (headRows ++ rhsRows) :=
    (((hword.addBinary rfl rfl rfl rfl h₄).addUnary rfl rfl rfl rfl h₅).addBinary rfl rfl rfl rfl
      h₆).addUnary rfl rfl rfl rfl h₇
  have hroot : ws₇.conjunctionRoot? lone.rhs = none := by
    rw [conjunctionRoot?, hrhs.families]
    rfl
  obtain ⟨owner, k, ws₀, -, hk, rfl, hdraft, -⟩ := conjunction_eq_ok hroot h₈
  obtain ⟨and, or, comma, hand, hor, hcomma, rfl, hconnected⟩ :=
    connectivesOnce_new hrhs.connectives hk
  have hstart : ws₀.draft = .laid (ownSymbolsOf singular term ++
      [.word (relativePart isPerson) relative] ++
      [.word "and" and, .word "or" or, .word "comma" comma]) (loneVocabulary plural)
      (headRows ++ rhsRows) := by
    rw [hconnected, hrhs.draft, Draft.symbols_laid_append hrows.2]
    rfl
  have hlengths : ws₇.draft.symbols.length = 10 ∧ ws₇.draft.vocabulary.size = 1 ∧
      ws₀.draft.symbols.length = 13 := by
    rw [hstart, hrhs.draft, Draft.length_laid, Draft.length_laid]
    exact ⟨rfl, rfl, rfl⟩
  have hlaid : ws₈.draft = .laid (loneSymbols singular (Name.stem owner.name) isPerson
      ⟨term, relative, and, or, comma⟩) (loneVocabulary plural)
      (headRows ++ rhsRows ++ loneFamily.additions) := by
    rw [hlengths.1, hlengths.2.1, hlengths.2.2] at hdraft
    have hfirst : ∀ x ∈ headRows ++ rhsRows, x.1.index < 13 := by decide
    rw [hdraft, withSymbols_laid hstart hfirst]
    refine Draft.appendRules_laid (fun x hx => ?_) (Family.distinct_additions separate_loneFamily)
    obtain ⟨p, -, hx⟩ := List.mem_flatMap.mp hx
    obtain ⟨r, -, rfl⟩ := List.mem_map.mp hx
    cases p <;> exact ⟨_, rfl, rfl, rfl⟩
  obtain ⟨hforest, rfl⟩ := Prod.mk.inj h₉
  obtain rfl : forest = [.mk lone.all []] := by
    rw [hlaid] at hforest
    exact (Except.ok.inj hforest).symm
  rw [hlengths.1, hlengths.2.1, hlengths.2.2] at h h₁₁
  have hplural : ws₁₁.draft = loneDraft singular plural (Name.stem owner.name) isPerson
      ⟨term, relative, and, or, comma⟩ :=
    addBinary_laid (addUnary_laid hlaid rfl rfl rfl rfl h₁₀) rfl rfl rfl rfl h₁₁
  cases h
  exact ⟨rfl, Name.stem owner.name, ⟨term, relative, and, or, comma⟩,
    ⟨hterm, hwords, hand, hor, hcomma⟩, hplural⟩

/-- What a category answers and leaves that is registered first. -/
theorem category_lone {spec : CategoryWords} (hentities : spec.entities = [])
    (h : (category spec).perform {} = (.ok c, ws)) :
    c = lone ∧ ∃ stem w, w.Valid ∧ ws.draft =
      loneDraft (Name.slug spec.singular) (Name.slug spec.plural) stem spec.isPerson w := by
  have hnone : (!spec.entities.isEmpty) = false := by simp [hentities]
  have hnew : (newCategory spec).perform {} = (.ok c, ws) := h
  rw [newCategory_eq spec rfl rfl hnone] at hnew
  simp only [perform_get_bind, perform_ofOutcome_bind_eq_ok_iff] at hnew
  obtain ⟨_, -, hnew⟩ := hnew
  generalize Name.slug spec.singular = singular at hnew ⊢
  generalize Name.slug spec.plural = plural at hnew ⊢
  simp only [perform_bind_eq_ok_iff] at hnew
  obtain ⟨_, _, h₁, _, _, h₂, _, _, h₃, _, _, h₄, _, _, h₅, _, _, h₆, _, _, h₇, _, _, h₈, _, _, h₉,
    hnew⟩ := hnew
  obtain ⟨term, hterm, rfl, rfl⟩ := addWord_eq_ok h₁
  obtain ⟨rfl, rfl⟩ := newSymbol_eq h₂
  obtain ⟨rfl, rfl⟩ := newSymbol_eq h₃
  obtain ⟨rfl, rfl⟩ := newSymbol_eq h₄
  obtain ⟨rfl, rfl⟩ := newSymbol_eq h₅
  obtain ⟨rfl, rfl⟩ := newSymbol_eq h₆
  obtain ⟨rfl, rfl⟩ := newSymbol_eq h₇
  obtain ⟨rfl, rfl⟩ := newSymbol_eq h₈
  obtain ⟨rfl, rfl⟩ := newSemantic_eq_ok h₉
  refine categoryRules_lone hterm ⟨?_, rfl, rfl⟩ ?_ hnew
  · exact Draft.laid_nil.symm
  · cases spec.isPerson <;> rfl

end QueryGrammar
