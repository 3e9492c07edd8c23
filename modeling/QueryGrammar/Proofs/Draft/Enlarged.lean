import QueryGrammar.Proofs.Conjunction.Created
/-!
Drafts between the steps of a longer registration. What stands in the draft at its beginning is known
to nobody but stays as it is, and what has been added since is known but for its rules. That is enough
to say of each further step whether it is accepted: rules decide nothing.
-/
namespace QueryGrammar

namespace Name

variable {part part' name : String}

/-- The name of a symbol with a single name part. -/
def bracketed (part : String) : String := "[" ++ part ++ "]"

theorem symbol_eq (h : isPart part = true) : symbol [part] = .ok (bracketed part) := by
  simp only [symbol, checkPart, h, List.isEmpty_cons, List.forM]
  rfl

theorem bracketed_injective : Function.Injective bracketed := by
  intro part part' h
  have hlist := congrArg String.toList h
  simp only [bracketed, String.toList_append, List.append_assoc] at hlist
  exact String.toList_inj.mp (List.append_cancel_right (List.append_cancel_left hlist))

theorem dropWhile_of_forall {α : Type} {q : α → Bool} {xs : List α} (h : ∀ x ∈ xs, q x = false) :
    xs.dropWhile q = xs :=
  List.dropWhile_eq_self_iff.mpr fun hpos => by simp [h _ (List.getElem_mem hpos)]

/-- A name part holds no brackets, so the brackets around it are all that is taken off. -/
theorem stem_bracketed (h : isPart part = true) : stem (bracketed part) = part := by
  obtain ⟨hne, hall⟩ : ¬ part.toList.isEmpty ∧ ∀ c ∈ part.toList, isPartChar c = true := by
    simpa [isPart] using h
  have hchars : ∀ c ∈ part.toList, (c == '[' || c == '<' || c == '\x7b') = false ∧
      (c == ']' || c == '>' || c == '\x7d') = false := by
    intro c hc
    have hchar := hall c hc
    simp only [isPartChar, Bool.not_eq_true', Bool.or_eq_false_iff, List.contains_cons] at hchar
    simp [hchar]
  have hlist : (bracketed part).toList = '[' :: (part.toList ++ [']']) := by simp [bracketed]
  have hopened : (part.toList ++ [']']).dropWhile (fun c => c == '[' || c == '<' || c == '\x7b') =
      part.toList ++ [']'] := by
    refine dropWhile_of_forall fun c hc => ?_
    rcases List.mem_append.mp hc with hc | hc
    · exact (hchars c hc).1
    · rw [List.mem_singleton.mp hc]
      decide
  have hclosed : part.toList.reverse.dropWhile (fun c => c == ']' || c == '>' || c == '\x7d') =
      part.toList.reverse :=
    dropWhile_of_forall fun c hc => (hchars c (List.mem_reverse.mp hc)).2
  simp [stem, hlist, hopened, hclosed]

end Name

theorem getElem?_of_isPrefix {α : Type} {xs ys : List α} {i : Nat} {x : α} (h : xs <+: ys)
    (hx : xs[i]? = some x) : ys[i]? = some x := by
  obtain ⟨hlt, rfl⟩ := List.getElem?_eq_some_iff.mp hx
  exact List.prefix_iff_getElem?.mp h i hlt

/-- What is seen of a symbol without its rules. -/
def Symbol.heading (s : Symbol) : String × Bool × Bool := (s.name, s.isTermSequence, s.pruned)

namespace Draft

/-- What a registration has added: symbols by their name parts, those of term sequences marked, and
semantics and entity categories. -/
structure Additions where
  symbols : List (String × Bool) := []
  semantics : List Semantic := []
  categories : List EntityCategory := []

namespace Additions

def parts (a : Additions) : List String := a.symbols.map (·.1)

def headings (a : Additions) : List (String × Bool × Bool) :=
  a.symbols.map fun x => (Name.bracketed x.1, x.2, false)

/-- One more symbol, of a term sequence or not. -/
def addSymbol (a : Additions) (part : String) (isTermSequence : Bool) : Additions :=
  { a with symbols := a.symbols ++ [(part, isTermSequence)] }

def addSemantic (a : Additions) (definition : Semantic) : Additions :=
  { a with semantics := a.semantics ++ [definition] }

def addCategory (a : Additions) (c : EntityCategory) : Additions :=
  { a with categories := a.categories ++ [c] }

end Additions

@[simp] theorem Additions.length_addSymbol (a : Additions) (part : String) (isTermSequence : Bool) :
    (a.addSymbol part isTermSequence).symbols.length = a.symbols.length + 1 := by
  simp [addSymbol]

@[simp] theorem Additions.semantics_addSymbol (a : Additions) (part : String) (isTermSequence : Bool) :
    (a.addSymbol part isTermSequence).semantics = a.semantics := rfl

@[simp] theorem Additions.semantics_addSemantic (a : Additions) (definition : Semantic) :
    (a.addSemantic definition).semantics = a.semantics ++ [definition] := rfl

@[simp] theorem Additions.symbols_addSemantic (a : Additions) (definition : Semantic) :
    (a.addSemantic definition).symbols = a.symbols := rfl

/-- The draft `e` is `d` with these additions. -/
structure Enlarged (d : Draft) (a : Additions) (e : Draft) : Prop where
  headings : e.symbols.map Symbol.heading = d.symbols.map Symbol.heading ++ a.headings
  kept : e.symbols.take d.symbols.length = d.symbols
  definitions : e.vocabulary.definitions = d.vocabulary.definitions ++ a.semantics
  categories : e.entityCategories = d.entityCategories ++ a.categories

/-- A pruned symbol has the name: it looks free and is not. -/
def Buried (d : Draft) (name : String) : Prop := ∃ s ∈ d.symbols, s.name = name ∧ s.pruned = true

/-- The symbol stands in the draft with the additions. -/
def Stands (d : Draft) (a : Additions) (X : SymbolId) : Prop :=
  X ∈ d.liveSymbols ∨
    d.symbols.length ≤ X.index ∧ X.index < d.symbols.length + a.symbols.length

/-- The symbol is among the additions and may have any rules. -/
def Owned (d : Draft) (a : Additions) (X : SymbolId) : Prop :=
  ∃ i part, X = ⟨d.symbols.length + i⟩ ∧ a.symbols[i]? = some (part, false)

/-- The name part is well formed, and no live symbol has its name. -/
structure Vacant (d : Draft) (a : Additions) (part : String) : Prop where
  isPart : Name.isPart part = true
  free : d.find? (Name.bracketed part) = none
  fresh : part ∉ a.parts

/-- Symbols of these name parts may be added one after the other, as far as the live ones show. -/
structure Room (d : Draft) (a : Additions) (parts : List String) : Prop where
  isPart : ∀ part ∈ parts, Name.isPart part = true
  free : ∀ part ∈ parts, d.find? (Name.bracketed part) = none
  fresh : (a.parts ++ parts).Nodup

/-- None of the names is that of a pruned symbol. -/
def Unburied (d : Draft) (parts : List String) : Prop :=
  ∀ part ∈ parts, ¬ d.Buried (Name.bracketed part)

instance (d : Draft) (name : String) : Decidable (d.Buried name) :=
  inferInstanceAs (Decidable (∃ s ∈ d.symbols, s.name = name ∧ s.pruned = true))

instance (d : Draft) (parts : List String) : Decidable (d.Unburied parts) :=
  inferInstanceAs (Decidable (∀ part ∈ parts, ¬ d.Buried (Name.bracketed part)))

/-- From the draft with the additions `a` the call is accepted exactly if `C` holds. It then answers `v`,
and the additions are `b`. -/
def Enlarges {α : Type} (d : Draft) (a : Additions) (f : Draft → Outcome (α × Draft)) (C : Prop) (v : α)
    (b : Additions) : Prop :=
  ∀ e, Enlarged d a e → match f e with
    | .ok (w, g) => C ∧ w = v ∧ Enlarged d b g
    | .error _ => ¬C

variable {d e : Draft} {a b : Additions} {X : SymbolId} {name part : String}

/-! ### What is seen of symbols -/

theorem mem_liveSymbols_iff_heading : X ∈ d.liveSymbols ↔
    ∃ name flag, (d.symbols.map Symbol.heading)[X.index]? = some (name, flag, false) := by
  rw [mem_liveSymbols_iff]
  simp only [get?_eq_some_iff, List.getElem?_map, Option.map_eq_some_iff, Symbol.heading,
    Prod.mk.injEq]
  constructor
  · rintro ⟨s, hs, hlive⟩
    exact ⟨s.name, s.isTermSequence, s, hs, rfl, rfl, hlive⟩
  · rintro ⟨_, _, s, hs, -, -, hlive⟩
    exact ⟨s, hs, hlive⟩

theorem index_lt_of_mem_liveSymbols (h : X ∈ d.liveSymbols) : X.index < d.symbols.length := by
  obtain ⟨s, hs⟩ := mem_liveSymbols_iff.mp h
  exact (List.getElem?_eq_some_iff.mp (get?_eq_some_iff.mp hs).1).1

theorem isTaken_iff : d.isTaken name = true ↔ ∃ s ∈ d.symbols, s.name = name := by
  simp [isTaken, List.any_eq_true]

theorem find?_eq_none_iff : d.find? name = none ↔ ∀ s ∈ d.symbols, s.name = name → s.pruned = true := by
  simp [find?, List.findIdx?_eq_none_iff]

/-- Under a name that looks free, only something pruned can be in the way. -/
theorem buried_iff_isTaken (h : d.find? name = none) : d.Buried name ↔ d.isTaken name = true := by
  rw [isTaken_iff]
  constructor
  · rintro ⟨s, hs, hname, -⟩
    exact ⟨s, hs, hname⟩
  · rintro ⟨s, hs, hname⟩
    exact ⟨s, hs, hname, find?_eq_none_iff.mp h s hs hname⟩

theorem Stands.mono (h : d.Stands a X) (hab : a.symbols <+: b.symbols) : d.Stands b X := by
  have hlength := hab.length_le
  exact h.imp id fun hX => ⟨hX.1, by omega⟩

/-- What was there before stands only if it is live. -/
theorem Stands.live (h : d.Stands a X) (hX : X.index < d.symbols.length) : X ∈ d.liveSymbols :=
  h.resolve_right fun hnew => absurd hX (Nat.not_lt.mpr hnew.1)

theorem Owned.mono (h : d.Owned a X) (hab : a.symbols <+: b.symbols) : d.Owned b X := by
  obtain ⟨i, part, rfl, hi⟩ := h
  exact ⟨i, part, rfl, getElem?_of_isPrefix hab hi⟩

theorem Owned.stands (h : d.Owned a X) : d.Stands a X := by
  obtain ⟨i, part, rfl, hi⟩ := h
  have hlt := (List.getElem?_eq_some_iff.mp hi).1
  exact Or.inr ⟨by simp, by simpa using hlt⟩

/-- The symbol that is added last may have any rules unless it is a term sequence. -/
theorem owned_last (d : Draft) (a : Additions) (part : String) :
    d.Owned (a.addSymbol part false) ⟨d.symbols.length + a.symbols.length⟩ :=
  ⟨a.symbols.length, part, rfl, by simp [Additions.addSymbol]⟩

theorem stands_last (d : Draft) (a : Additions) (part : String) (isTermSequence : Bool) :
    d.Stands (a.addSymbol part isTermSequence) ⟨d.symbols.length + a.symbols.length⟩ :=
  Or.inr ⟨by simp, by simp [Additions.addSymbol]⟩

@[simp] theorem unburied_nil (d : Draft) : d.Unburied [] := by simp [Unburied]

theorem unburied_cons {parts : List String} :
    d.Unburied (part :: parts) ↔ ¬ d.Buried (Name.bracketed part) ∧ d.Unburied parts :=
  List.forall_mem_cons

theorem unburied_append {parts parts' : List String} :
    d.Unburied (parts ++ parts') ↔ d.Unburied parts ∧ d.Unburied parts' :=
  List.forall_mem_append

namespace Room

variable {parts parts' : List String}

theorem vacant_of_mem (h : d.Room a parts) (hpart : part ∈ parts) : d.Vacant a part where
  isPart := h.isPart part hpart
  free := h.free part hpart
  fresh hmem := (List.nodup_append.mp h.fresh).2.2 part hmem part hpart rfl

theorem vacant (h : d.Room a (part :: parts)) : d.Vacant a part :=
  h.vacant_of_mem List.mem_cons_self

theorem next (h : d.Room a (part :: parts)) (isTermSequence : Bool) :
    d.Room (a.addSymbol part isTermSequence) parts where
  isPart p hp := h.isPart p (List.mem_cons_of_mem _ hp)
  free p hp := h.free p (List.mem_cons_of_mem _ hp)
  fresh := by simpa [Additions.parts, Additions.addSymbol] using h.fresh

theorem left (h : d.Room a (parts ++ parts')) : d.Room a parts where
  isPart p hp := h.isPart p (List.mem_append_left _ hp)
  free p hp := h.free p (List.mem_append_left _ hp)
  fresh := h.fresh.sublist (List.Sublist.append_left (List.sublist_append_left _ _) _)

end Room

namespace Enlarged

theorem refl (d : Draft) : Enlarged d {} d where
  headings := by simp [Additions.headings]
  kept := List.take_length
  definitions := (List.append_nil _).symm
  categories := (List.append_nil _).symm

theorem length (h : Enlarged d a e) : e.symbols.length = d.symbols.length + a.symbols.length := by
  simpa [Additions.headings] using congrArg List.length h.headings

theorem getElem?_heading (h : Enlarged d a e) (X : SymbolId) : (e.symbols.map Symbol.heading)[X.index]? =
    (d.symbols.map Symbol.heading ++ a.headings)[X.index]? := by
  rw [h.headings]

theorem names (h : Enlarged d a e) : e.symbols.map (·.name) =
    d.symbols.map (·.name) ++ a.parts.map Name.bracketed := by
  have hnames := congrArg (List.map (·.1)) h.headings
  simpa [Additions.headings, Additions.parts, Symbol.heading, Function.comp_def] using hnames

/-- The draft is the one before and then new symbols of the names that were added. -/
theorem exists_symbols (h : Enlarged d a e) : ∃ added, e.symbols = d.symbols ++ added ∧
    added.map (·.name) = a.parts.map Name.bracketed := by
  have hsplit : d.symbols ++ e.symbols.drop d.symbols.length = e.symbols := by
    conv_rhs => rw [← List.take_append_drop d.symbols.length e.symbols, h.kept]
  refine ⟨_, hsplit.symm, ?_⟩
  have hnames := h.names
  rw [← hsplit, List.map_append] at hnames
  exact List.append_cancel_left hnames

/-- What was there before stays as it was, its rules included. -/
theorem get? (h : Enlarged d a e) {s : Symbol} (hs : d.get? X = some s) : e.get? X = some s := by
  obtain ⟨hs, hlive⟩ := get?_eq_some_iff.mp hs
  refine get?_eq_some_iff.mpr ⟨?_, hlive⟩
  rw [← h.kept, List.getElem?_take] at hs
  split at hs
  next => exact hs
  next => cases hs

theorem mem_liveSymbols_iff (h : Enlarged d a e) : X ∈ e.liveSymbols ↔ d.Stands a X := by
  rw [Stands, mem_liveSymbols_iff_heading, mem_liveSymbols_iff_heading, h.getElem?_heading]
  rcases Nat.lt_or_ge X.index d.symbols.length with hlt | hge
  · rw [List.getElem?_append_left (by simpa using hlt)]
    simp [Nat.not_le.mpr hlt]
  · have hnone : (d.symbols.map Symbol.heading)[X.index]? = none := by simpa using hge
    rw [List.getElem?_append_right (by simpa using hge), hnone]
    simp only [Additions.headings, List.length_map, List.getElem?_map, Option.map_eq_some_iff,
      Prod.mk.injEq, reduceCtorEq, exists_false, hge, true_and, false_or]
    constructor
    · rintro ⟨_, _, x, hx, -⟩
      have hlt := (List.getElem?_eq_some_iff.mp hx).1
      omega
    · intro hlt
      exact ⟨_, _, _, List.getElem?_eq_getElem (by omega), rfl, rfl, trivial⟩

/-- What was added can be looked up under its number. -/
theorem exists_added (h : Enlarged d a e) {i : Nat} {isTermSequence : Bool}
    (hi : a.symbols[i]? = some (part, isTermSequence)) :
    ∃ s, e.get? ⟨d.symbols.length + i⟩ = some s ∧ s.name = Name.bracketed part ∧
      s.isTermSequence = isTermSequence := by
  have hheading := h.getElem?_heading ⟨d.symbols.length + i⟩
  rw [List.getElem?_append_right (by simp)] at hheading
  simp only [List.length_map, Nat.add_sub_cancel_left, Additions.headings, List.getElem?_map, hi,
    Option.map_some, Option.map_eq_some_iff, Symbol.heading, Prod.mk.injEq] at hheading
  obtain ⟨s, hs, hname, hflag, hlive⟩ := hheading
  exact ⟨s, get?_eq_some_iff.mpr ⟨hs, hlive⟩, hname, hflag⟩

theorem exists_of_owned (h : Enlarged d a e) (hX : d.Owned a X) :
    ∃ s, e.get? X = some s ∧ s.isTermSequence = false := by
  obtain ⟨i, part, rfl, hi⟩ := hX
  obtain ⟨s, hs, -, hflag⟩ := h.exists_added hi
  exact ⟨s, hs, hflag⟩

theorem find?_eq_none (h : Enlarged d a e) (hpart : d.Vacant a part) :
    e.find? (Name.bracketed part) = none := by
  rw [find?_eq_none_iff]
  intro s hs hname
  obtain ⟨added, hsymbols, hadded⟩ := h.exists_symbols
  rw [hsymbols] at hs
  rcases List.mem_append.mp hs with hs | hs
  · exact find?_eq_none_iff.mp hpart.free s hs hname
  · have hmem := List.mem_map_of_mem (f := (·.name)) hs
    rw [hadded, hname, List.mem_map_of_injective Name.bracketed_injective] at hmem
    exact absurd hmem hpart.fresh

theorem isTaken_iff (h : Enlarged d a e) (hpart : d.Vacant a part) :
    e.isTaken (Name.bracketed part) = true ↔ d.Buried (Name.bracketed part) := by
  rw [buried_iff_isTaken hpart.free, Draft.isTaken_iff, Draft.isTaken_iff]
  obtain ⟨added, hsymbols, hadded⟩ := h.exists_symbols
  rw [hsymbols]
  constructor
  · rintro ⟨s, hs, hname⟩
    rcases List.mem_append.mp hs with hs | hs
    · exact ⟨s, hs, hname⟩
    · have hmem := List.mem_map_of_mem (f := (·.name)) hs
      rw [hadded, hname, List.mem_map_of_injective Name.bracketed_injective] at hmem
      exact absurd hmem hpart.fresh
  · rintro ⟨s, hs, hname⟩
    exact ⟨s, List.mem_append_left _ hs, hname⟩

/-! ### Each kind of addition -/

theorem appendSymbol (h : Enlarged d a e) (part : String) (isTermSequence : Bool) :
    Enlarged d (a.addSymbol part isTermSequence)
      (e.appendSymbol { name := Name.bracketed part, isTermSequence := isTermSequence }).2 where
  headings := by
    simp [Draft.appendSymbol, Additions.addSymbol, Additions.headings, h.headings, Symbol.heading]
  kept := by
    have hle : d.symbols.length ≤ e.symbols.length := h.length ▸ Nat.le_add_right _ _
    rw [Draft.appendSymbol, List.take_append_of_le_length hle, h.kept]
  definitions := h.definitions
  categories := h.categories

theorem modifyRules (h : Enlarged d a e) (hX : d.symbols.length ≤ X.index)
    (g : List Rule → List Rule) :
    Enlarged d a (e.modifySymbol X fun s => { s with rules := g s.rules }) where
  headings := by
    rw [← h.headings]
    apply List.ext_getElem?
    intro i
    rw [List.getElem?_map, getElem?_modifyRules, List.getElem?_map, Option.map_map]
    congr 1
    funext s
    simp only [Function.comp_apply]
    split <;> rfl
  kept := by
    refine Eq.trans (List.ext_getElem? fun i => ?_) h.kept
    rw [List.getElem?_take, List.getElem?_take, getElem?_modifyRules]
    split
    next hi =>
      have hne : X.index ≠ i := by omega
      simp [hne]
    next => rfl
  definitions := h.definitions
  categories := h.categories

theorem appendRule (h : Enlarged d a e) (hX : d.symbols.length ≤ X.index) (r : Rule) :
    Enlarged d a (e.appendRule X r) := by
  unfold Draft.appendRule
  split
  · exact h.modifyRules hX (· ++ [r])
  · exact h

end Enlarged

/-! ### Steps that are decided -/

namespace Enlarges

variable {α : Type} {f : Draft → Outcome (α × Draft)} {C : Prop} {v w : α} {g : Draft}

theorem of_ok (h : d.Enlarges a f C v b) (he : Enlarged d a e) (hf : f e = .ok (w, g)) :
    C ∧ w = v ∧ Enlarged d b g := by
  have hdecided := h e he
  rw [hf] at hdecided
  exact hdecided

theorem of_error {err : BuildError} (h : d.Enlarges a f C v b) (he : Enlarged d a e)
    (hf : f e = .error err) : ¬C := by
  have hdecided := h e he
  rw [hf] at hdecided
  exact hdecided

end Enlarges

theorem enlarges_newSymbolOf (hpart : d.Vacant a part) (isTermSequence : Bool) :
    d.Enlarges a (·.newSymbolOf isTermSequence [part]) (¬ d.Buried (Name.bracketed part))
      ⟨d.symbols.length + a.symbols.length⟩ (a.addSymbol part isTermSequence) := by
  intro e he
  simp only [newSymbolOf, Name.symbol_eq hpart.isPart, bind, Except.bind]
  by_cases htaken : e.isTaken (Name.bracketed part) = true
  · simpa [htaken, throw, throwThe, MonadExceptOf.throw] using (he.isTaken_iff hpart).mp htaken
  · have hfree : ¬ d.Buried (Name.bracketed part) := fun h => htaken ((he.isTaken_iff hpart).mpr h)
    have happend := he.appendSymbol part isTermSequence
    simp only [htaken, pure, Except.pure, Draft.appendSymbol, he.length] at happend ⊢
    exact ⟨hfree, rfl, happend⟩

/-- Without semantics, what is checked of the entries of a word does not depend on the draft. -/
theorem checkLexical_of_free {entries kept : List LexicalEntry}
    (h : d.checkLexical name entries none = .ok kept)
    (hfree : e.find? (Name.bracketed name) = none) : e.checkLexical name entries none = .ok kept := by
  unfold checkLexical at h ⊢
  simp only [Outcome.bind_eq_ok_iff, Outcome.unless_eq_ok_iff] at h ⊢
  obtain ⟨symbol, hsymbol, _, -, normal, hnormal, hany, _, hcosts, _, -, heq⟩ := h
  obtain rfl := Registration.eq_of_symbol hsymbol
  have hchecked : e.checkFree (Name.bracketed name) = .ok () := by simp [checkFree, hfree]
  exact ⟨_, hsymbol, (), hchecked, normal, hnormal, hany, (), hcosts, (), rfl, heq⟩

theorem enlarges_addLexical {entries kept : List LexicalEntry} {f : Draft}
    (hpart : d.Vacant a part) (hcheck : f.checkLexical part entries none = .ok kept) :
    d.Enlarges a (·.addLexical part entries none) (¬ d.Buried (Name.bracketed part))
      ⟨d.symbols.length + a.symbols.length⟩ (a.addSymbol part true) := by
  intro e he
  have hkept := checkLexical_of_free hcheck (he.find?_eq_none hpart)
  have hnew := enlarges_newSymbolOf hpart true
  simp only [addLexical, Change.accepted, perform_registerLexical, hkept]
  cases hsymbol : e.newSymbolOf true [part] with
  | error err => exact hnew.of_error he hsymbol
  | ok p =>
    obtain ⟨hfree, hid, hadded⟩ := hnew.of_ok he hsymbol
    refine ⟨hfree, hid, hadded.modifyRules ?_ fun _ => _⟩
    rw [hid]
    exact Nat.le_add_right _ _

theorem enlarges_newSemantic {definition : Semantic} (hname : Name.isPart definition.name = true)
    (hfree : ∀ k ∈ d.vocabulary.definitions ++ a.semantics, k.name ≠ definition.name)
    (hbounds : Vocabulary.boundsFlaw? definition = none)
    (hcost : Vocabulary.isCost definition.cost = true) :
    d.Enlarges a (·.newSemantic definition) True
      ⟨d.vocabulary.size + a.semantics.length⟩ (a.addSemantic definition) := by
  intro e he
  have hfind : e.vocabulary.find? definition.name = none := by
    rw [Vocabulary.find?, Option.map_eq_none_iff, List.findIdx?_eq_none_iff, he.definitions]
    simpa using hfree
  have hsize : e.vocabulary.size = d.vocabulary.size + a.semantics.length := by
    rw [Vocabulary.size, he.definitions, List.length_append, Vocabulary.size]
  simp only [newSemantic, Vocabulary.register, Name.checkPart, hname, hfind, hbounds, hcost, if_true,
    Option.isSome_none, Bool.false_eq_true, if_false, bind, Except.bind, pure, Except.pure]
  refine ⟨trivial, by rw [hsize], { he with definitions := ?_ }⟩
  simp [Additions.addSemantic, he.definitions]

/-- The category that is made of these names. -/
def categoryOf (name : String) (instances : List String) : EntityCategory where
  name := name
  instances := Keyed.distinct id ((instances.map Name.normalizeTerm).filter fun term => !term.isEmpty)

theorem enlarges_newEntityCategory (hnew : a.categories = []) (name : String)
    (instances : List String) :
    d.Enlarges a (·.newEntityCategory name instances)
      (Name.isPart name = true ∧ ∀ c ∈ d.entityCategories, c.name ≠ name)
      ⟨d.entityCategories.length⟩ (a.addCategory (categoryOf name instances)) := by
  intro e he
  have hcategories : e.entityCategories = d.entityCategories := by
    rw [he.categories, hnew, List.append_nil]
  simp only [newEntityCategory, Name.checkPart, hcategories, bind, Except.bind]
  by_cases hpart : Name.isPart name = true
  · by_cases hany : d.entityCategories.any (·.name == name) = true
    · have htaken : ∃ c ∈ d.entityCategories, c.name = name := by simpa using hany
      simpa [hpart, hany, throw, throwThe, MonadExceptOf.throw] using htaken
    · have hfree : ∀ c ∈ d.entityCategories, c.name ≠ name := by simpa using hany
      simp only [hpart, hany, if_true, Bool.false_eq_true, if_false, pure, Except.pure]
      refine ⟨⟨trivial, hfree⟩, trivial, { he with categories := ?_ }⟩
      simp [Additions.addCategory, hnew, categoryOf]
  · simp [hpart]

end Draft

end QueryGrammar
