import QueryGrammar.Proofs.Draft.Lexical
/-!
What a registered word, verb, pronoun or term sequence holds. Its forms are given in groups of
accepted forms and a list of substituted ones; after normalization forms of different groups may
coincide and forms may turn out blank. Each distinct form that is left keeps the entry of its first
occurrence, and nothing of the entries after it.
-/
namespace QueryGrammar

namespace LexicalEntry

/-- The term of an entry as it is compared and stored. -/
def form (x : LexicalEntry) : String := Name.normalizeTerm x.term

def withForm (x : LexicalEntry) : LexicalEntry := { x with term := x.form }

/-- What of an entry is given by the place of its term: the groups of accepted terms have features,
the substituted terms have none. -/
def given (x : LexicalEntry) : String × Features × Bool := (x.term, x.features, x.accepted)

/-- The distinct forms of the entries in the order of their first occurrences; a blank term has no
form. -/
def forms (entries : List LexicalEntry) : List String :=
  ((entries.map form).filter (· ≠ "")).eraseDups

variable {entries normal : List LexicalEntry} {x : LexicalEntry} {term : String}

theorem mem_forms_iff : term ∈ forms entries ↔ term ≠ "" ∧ ∃ x ∈ entries, x.form = term := by
  simp only [forms, List.mem_eraseDups, List.mem_filter, List.mem_map, decide_eq_true_eq]
  exact and_comm

theorem normalized_eq (h : normalized entries = .ok normal) : normal = entries.map withForm := by
  induction entries generalizing normal with
  | nil => exact (Except.ok.inj h).symm
  | cons y ys ih =>
    unfold normalized at h
    rw [List.mapM_cons] at h
    simp only [Outcome.bind_eq_ok_iff] at h
    obtain ⟨_, ⟨term, hterm, hy⟩, rest, hrest, h⟩ := h
    obtain rfl := Except.ok.inj hy
    obtain rfl := Except.ok.inj h
    have hform : term = y.form := by
      unfold Name.checkedTerm at hterm
      split at hterm
      · cases hterm
      · exact (Except.ok.inj hterm).symm
    rw [List.map_cons, ← ih hrest, hform]
    rfl

/-! ### The entries that are kept -/

theorem terms_firstOccurrences (seen : List String) (entries : List LexicalEntry) :
    (firstOccurrences seen entries).map (·.term) =
      ((entries.map (·.term)).filter fun term => term ≠ "" ∧ term ∉ seen).eraseDups := by
  induction entries generalizing seen with
  | nil => rfl
  | cons y ys ih =>
    unfold firstOccurrences
    by_cases hdropped : y.term.isEmpty || seen.contains y.term
    · have hfails : ¬ (y.term ≠ "" ∧ y.term ∉ seen) := by
        rintro ⟨hterm, hfresh⟩
        simp [hterm, hfresh] at hdropped
      rw [if_pos hdropped, ih, List.map_cons, List.filter_cons_of_neg (by simpa using hfails)]
    · have hholds : y.term ≠ "" ∧ y.term ∉ seen := by simpa using hdropped
      rw [if_neg hdropped, List.map_cons, ih, List.map_cons,
        List.filter_cons_of_pos (by simpa using hholds), List.eraseDups_cons, List.filter_filter]
      -- The term is met from now on, which is what erasing its later occurrences comes to.
      congr 3
      funext term
      by_cases hsame : term = y.term <;> simp [hsame]

theorem term_ne_of_mem_firstOccurrences {seen : List String}
    (h : x ∈ firstOccurrences seen entries) : x.term ≠ "" := by
  have hmem : x.term ∈ (firstOccurrences seen entries).map (·.term) := List.mem_map_of_mem h
  rw [terms_firstOccurrences, List.mem_eraseDups, List.mem_filter] at hmem
  exact (of_decide_eq_true hmem.2).1

theorem find?_of_mem_firstOccurrences {seen : List String}
    (h : x ∈ firstOccurrences seen entries) : entries.find? (·.term == x.term) = some x := by
  induction entries generalizing seen with
  | nil => simp [firstOccurrences] at h
  | cons y ys ih =>
    have hmem := h
    unfold firstOccurrences at h
    split at h
    next hdropped =>
      -- An entry that is dropped has no term or one that was met, unlike any that is kept.
      have hother : (y.term == x.term) = false := by
        by_contra hsame
        rw [Bool.not_eq_false, beq_iff_eq] at hsame
        rw [hsame] at hdropped
        rcases Bool.or_eq_true_iff.mp hdropped with hempty | hseen
        · exact term_ne_of_mem_firstOccurrences hmem (by simpa using hempty)
        · exact notMem_seen_of_mem_firstOccurrences hmem (List.contains_iff_mem.mp hseen)
      rw [List.find?_cons_of_neg (by simp [hother]), ih h]
    next =>
      rcases List.mem_cons.mp h with rfl | h
      · simp
      · have hother : y.term ≠ x.term := fun hsame =>
          notMem_seen_of_mem_firstOccurrences h (hsame ▸ List.mem_cons_self)
        rw [List.find?_cons_of_neg (by simpa using hother), ih h]

end LexicalEntry

/-- A call that registers a lexical symbol. -/
inductive LexicalRequest where
  | termSequence (t : TermSequence)
  | word (name : String) (accepted substituted : List String) (insertionCost : Option Float)
  | verb (v : Verb)
  | pronoun (p : Pronoun)

namespace LexicalRequest

def register (d : Draft) : LexicalRequest → Outcome (SymbolId × Draft)
  | termSequence t => d.newTermSequence t
  | word name accepted substituted cost => d.addWord name accepted substituted cost
  | verb v => d.addVerb v
  | pronoun p => d.addPronoun p

def name : LexicalRequest → String
  | termSequence t => t.name
  | word name _ _ _ => name
  | verb v => v.name
  | pronoun p => p.name

def semantic : LexicalRequest → Option Forest
  | termSequence t => t.semantic
  | word _ _ _ _ => none
  | verb _ => none
  | pronoun p => p.semantic

/-- The accepted terms, each group with the features of its terms. -/
def groups : LexicalRequest → List (List String × Features)
  | termSequence t => [(t.accepted.map (·.term), {})]
  | word _ accepted _ _ => [(accepted, {})]
  | verb v =>
    [(v.oneSg, { personNumber := some .oneSg, tense := some .present }),
      (v.threeSg, { personNumber := some .threeSg, tense := some .present }),
      (v.pl, { personNumber := some .pl, tense := some .present }),
      (v.past, { tense := some .past })]
  | pronoun p => [(p.nom, { case := some .nom }), (p.obj, { case := some .obj })]

/-- The accepted terms as they are given. -/
def accepted (r : LexicalRequest) : List String := r.groups.flatMap (·.1)

def substituted : LexicalRequest → List String
  | termSequence t => t.substituted
  | word _ _ substituted _ => substituted
  | verb v => v.substituted
  | pronoun p => p.substituted

def entries : LexicalRequest → List LexicalEntry
  | termSequence t => t.entries
  | word name accepted others cost => (TermSequence.word name accepted others cost).entries
  | verb v => v.entries
  | pronoun p => p.entries

/-- The entries that the symbol has rules for. -/
def kept (r : LexicalRequest) : List LexicalEntry :=
  LexicalEntry.firstOccurrences [] (r.entries.map LexicalEntry.withForm)

variable {r : LexicalRequest} {d e : Draft} {id : SymbolId} {x y : LexicalEntry}

theorem register_eq (r : LexicalRequest) (d : Draft) :
    r.register d = d.addLexical r.name r.entries r.semantic := by
  cases r <;> rfl

/-! ### Accepted terms come before substituted ones -/

theorem map_modifyHead_eq {α : Type} {g : LexicalEntry → α} {f : LexicalEntry → LexicalEntry}
    (hf : ∀ x, g (f x) = g x) (entries : List LexicalEntry) :
    (entries.modifyHead f).map g = entries.map g := by
  cases entries with
  | nil => rfl
  | cons x xs => simp [hf]

theorem given_ofForms (text : DisplayText) (cost : Option Float)
    (groups : List (List String × Features)) :
    (LexicalEntry.ofForms text cost groups).map LexicalEntry.given =
      groups.flatMap fun (terms, features) => terms.map fun term => (term, features, true) := by
  rw [LexicalEntry.ofForms, map_modifyHead_eq (f := fun x => { x with insertionCost := cost })
    fun _ => rfl, List.map_flatMap]
  simp [LexicalEntry.given, Function.comp_def]

theorem exists_entries_eq (r : LexicalRequest) :
    ∃ accepted text, r.entries = accepted ++ LexicalEntry.substituting r.substituted text ∧
      accepted.map LexicalEntry.given =
        r.groups.flatMap fun (terms, features) => terms.map fun term => (term, features, true) := by
  cases r with
  | termSequence t =>
    exact ⟨_, _, rfl, by simp [groups, LexicalEntry.given, Function.comp_def]⟩
  | word name accepted substituted cost =>
    refine ⟨_, _, rfl, ?_⟩
    cases accepted <;> simp [TermSequence.word, groups, LexicalEntry.given, Function.comp_def]
  | verb v => exact ⟨_, _, rfl, given_ofForms _ _ _⟩
  | pronoun p => exact ⟨_, _, rfl, given_ofForms _ _ _⟩

theorem exists_split (r : LexicalRequest) :
    ∃ accepted text, r.entries = accepted ++ LexicalEntry.substituting r.substituted text ∧
      (∀ x ∈ accepted, x.accepted = true) ∧ accepted.map (·.term) = r.accepted := by
  obtain ⟨accepted, text, heq, hgiven⟩ := r.exists_entries_eq
  refine ⟨accepted, text, heq, fun x hx => ?_, ?_⟩
  · have hmem : x.given ∈ accepted.map LexicalEntry.given := List.mem_map_of_mem hx
    rw [hgiven] at hmem
    obtain ⟨group, -, hmem⟩ := List.mem_flatMap.mp hmem
    obtain ⟨term, -, hx⟩ := List.mem_map.mp hmem
    exact (congrArg (·.2.2) hx).symm
  · have hterms := congrArg (List.map Prod.fst) hgiven
    simpa [List.map_flatMap, Function.comp_def, LexicalEntry.given, LexicalRequest.accepted]
      using hterms

/-- The rules of an accepted request. The new symbol is appended, so that nothing else changes. -/
theorem registered_of_register (h : r.register d = .ok (id, e)) :
    ∃ name, Name.symbol [r.name] = .ok name ∧
      (id, e) = d.appendSymbol
        { name := name
          rules := r.kept.map (LexicalEntry.toRule r.semantic)
          isTermSequence := true } ∧
      ∃ x ∈ r.kept, x.accepted = true := by
  rw [register_eq, Draft.addLexical_eq_ok_iff] at h
  obtain ⟨kept, f, hcheck, hnew, rfl⟩ := h
  unfold Draft.checkLexical at hcheck
  simp only [Outcome.bind_eq_ok_iff, Outcome.unless_eq_ok_iff] at hcheck
  obtain ⟨_, -, _, -, normal, hnormal, haccepted, _, -, _, -, hkept⟩ := hcheck
  obtain rfl := LexicalEntry.normalized_eq hnormal
  obtain rfl := Except.ok.inj hkept
  obtain ⟨name, hname, -, heq⟩ := Draft.newSymbolOf_eq hnew
  obtain ⟨rfl, rfl⟩ := Prod.mk.inj heq
  refine ⟨name, hname, ?_, List.any_eq_true.mp haccepted⟩
  exact congrArg (Prod.mk _) (Draft.modifySymbol_appendSymbol d _ _)

theorem terms_kept (r : LexicalRequest) :
    r.kept.map (·.term) = LexicalEntry.forms r.entries := by
  rw [kept, LexicalEntry.terms_firstOccurrences, List.map_map, LexicalEntry.forms]
  congr 2
  funext term
  simp

theorem find?_of_mem_kept (h : x ∈ r.kept) :
    ∃ y, r.entries.find? (·.form == x.term) = some y ∧ x = y.withForm := by
  have hfirst := LexicalEntry.find?_of_mem_firstOccurrences h
  rw [List.find?_map] at hfirst
  obtain ⟨y, hy, rfl⟩ := Option.map_eq_some_iff.mp hfirst
  exact ⟨y, hy, rfl⟩

/-- A form that is accepted somewhere is kept as an accepted one, as the substituted terms come
last. -/
theorem accepted_of_mem_kept (hx : x ∈ r.kept) (hy : y ∈ r.entries) (haccepted : y.accepted = true)
    (hform : y.form = x.term) : x.accepted = true := by
  obtain ⟨first, hfirst, rfl⟩ := find?_of_mem_kept hx
  obtain ⟨accepted, text, heq, hall, -⟩ := r.exists_split
  rw [heq] at hy hfirst
  have hmem : y ∈ accepted := by
    rcases List.mem_append.mp hy with hy | hy
    · exact hy
    · obtain ⟨term, -, rfl⟩ := List.mem_map.mp hy
      cases haccepted
  rw [List.find?_append] at hfirst
  cases hfind : accepted.find? (·.form == first.withForm.term) with
  | none => exact absurd (by simpa using hform) (List.find?_eq_none.mp hfind y hmem)
  | some z =>
    rw [hfind] at hfirst
    obtain rfl := Option.some.inj hfirst
    exact hall z (List.mem_of_find?_eq_some hfind)

theorem insertionCost_of_mem_kept (hx : x ∈ r.kept) (hsubstituted : x.accepted = false) :
    x.insertionCost = none := by
  obtain ⟨y, hy, rfl⟩ := find?_of_mem_kept hx
  obtain ⟨accepted, text, heq, hall, -⟩ := r.exists_split
  have hmem := List.mem_of_find?_eq_some hy
  rw [heq] at hmem
  rcases List.mem_append.mp hmem with hmem | hmem
  · cases hsubstituted.symm.trans (hall y hmem)
  · obtain ⟨term, -, rfl⟩ := List.mem_map.mp hmem
    rfl

/-- An accepted request appends one symbol and changes nothing else. The symbol is a term sequence
with one rule for each distinct form it is given, in the order of first occurrence: groups of
accepted terms come first, then the substituted ones. Each rule has the text, the features and the
insertion cost of the first occurrence of its form, and the semantic of the request. One form at
least is accepted, a form that is accepted anywhere has its accepted rule only, and no substituted
one can be inserted. -/
theorem registered_exactly (h : r.register d = .ok (id, e)) :
    ∃ name, ∃ kept : List LexicalEntry, Name.symbol [r.name] = .ok name ∧
      (id, e) = d.appendSymbol
        { name := name
          rules := kept.map (LexicalEntry.toRule r.semantic)
          isTermSequence := true } ∧
      kept.map (·.term) = LexicalEntry.forms r.entries ∧
      r.entries.map LexicalEntry.given =
        (r.groups.flatMap fun (terms, features) => terms.map fun term => (term, features, true)) ++
          r.substituted.map (fun term => (term, ({} : Features), false)) ∧
      (∀ x ∈ kept, ∃ y, r.entries.find? (·.form == x.term) = some y ∧ x = y.withForm) ∧
      (∃ x ∈ kept, x.accepted = true) ∧
      (∀ x ∈ kept, ∀ y ∈ r.entries, y.accepted = true → y.form = x.term → x.accepted = true) ∧
      ∀ x ∈ kept, x.accepted = false → x.insertionCost = none := by
  obtain ⟨name, hname, happended, haccepted⟩ := registered_of_register h
  refine ⟨name, r.kept, hname, happended, r.terms_kept, ?_, fun x => find?_of_mem_kept, haccepted,
    fun x hx y => accepted_of_mem_kept hx, fun x => insertionCost_of_mem_kept⟩
  obtain ⟨accepted, text, heq, hgiven⟩ := r.exists_entries_eq
  rw [heq, List.map_append, hgiven, LexicalEntry.substituting, List.map_map]
  rfl

/-- The plural and one substituted form of this verb repeat others, and one form is blank. -/
def be : LexicalRequest :=
  verb
    { name := "be"
      oneSg := ["am"]
      threeSg := ["is", " "]
      pl := [" AM "]
      past := ["was"]
      substituted := ["Is", "be"] }

theorem registered_exactly_be :
    ∃ id e name, ∃ kept : List LexicalEntry, be.register Draft.empty = .ok (id, e) ∧
      (id, e) = Draft.empty.appendSymbol
        { name := name
          rules := kept.map (LexicalEntry.toRule none)
          isTermSequence := true } ∧
      kept.map (·.term) = ["am", "is", "was", "be"] := by
  have hok : (be.register Draft.empty).isOk = true := by decide +kernel
  obtain ⟨⟨id, e⟩, h⟩ := exists_of_isOk hok
  obtain ⟨name, kept, -, happended, hterms, -⟩ := registered_exactly h
  exact ⟨id, e, name, kept, h, happended, hterms.trans (by decide +kernel)⟩

end LexicalRequest

end QueryGrammar
