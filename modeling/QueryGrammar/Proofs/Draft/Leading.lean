import QueryGrammar.Proofs.Draft.Occurrences
/-!
The first accepted term of a lexical symbol. Substituted forms show it, a suggestion is made with
it, and a table of inflections shows the first term of each group. It is looked up before blank
terms are dropped: a request that starts with a blank term shows nothing for its substituted forms
and loses its insertion cost, and a group that starts with one has an empty form in the table.
-/
namespace QueryGrammar

/-- The forms that a table has. -/
def Inflections.present (table : Inflections) : List String :=
  [table.oneSg, table.threeSg, table.pl, table.past, table.nom, table.obj].filterMap id

namespace LexicalEntry

variable {entries : List LexicalEntry} {x : LexicalEntry}

theorem firstOccurrences_append (seen : List String) (xs ys : List LexicalEntry) :
    ∃ met, firstOccurrences seen (xs ++ ys) =
      firstOccurrences seen xs ++ firstOccurrences met ys := by
  induction xs generalizing seen with
  | nil => exact ⟨seen, rfl⟩
  | cons x xs ih =>
    rw [List.cons_append, firstOccurrences, firstOccurrences]
    split
    · exact ih seen
    · obtain ⟨met, heq⟩ := ih (x.term :: seen)
      exact ⟨met, by rw [heq, List.cons_append]⟩

end LexicalEntry

namespace LexicalRequest

/-- Substituted forms of words and phrases show the canonical term, those of verbs and pronouns the
table of forms. -/
def showsCanonical : LexicalRequest → Bool
  | termSequence _ => true
  | word _ _ _ _ => true
  | verb _ => false
  | pronoun _ => false

/-- The cost of suggesting the symbol. The terms of a phrase have costs of their own. -/
def insertionCost : LexicalRequest → Option Float
  | termSequence _ => none
  | word _ _ _ cost => cost
  | verb v => v.insertionCost
  | pronoun p => p.insertionCost

/-- The first accepted term has no words. -/
def LeadsBlank (r : LexicalRequest) : Prop := leadingForm r.accepted = some ""

/-- Each substituted form shows the first term that is kept. -/
def ShowsFirst (r : LexicalRequest) : Prop :=
  ∃ first ∈ r.kept.head?, ∀ x ∈ r.kept, x.accepted = false → x.text = .replace first.term

/-- The first rule has this insertion cost. -/
def FirstCosts (r : LexicalRequest) (cost : Float) : Prop :=
  ∃ first ∈ r.kept.head?, first.insertionCost = some cost

/-- Every form in a table of the symbol is a term that the symbol accepts. -/
def TablesAccepted (r : LexicalRequest) : Prop :=
  ∀ x ∈ r.kept, ∀ table, x.text = .inflected table →
    ∀ form ∈ table.present, form ≠ "" ∧ ∃ y ∈ r.kept, y.accepted = true ∧ y.term = form

variable {r : LexicalRequest} {d e : Draft} {id : SymbolId} {x y : LexicalEntry}
  {ys : List LexicalEntry} {cost : Float}

theorem mem_entries_of_mem_kept (h : x ∈ r.kept) : ∃ y ∈ r.entries, x = y.withForm := by
  obtain ⟨y, hy, heq⟩ := find?_of_mem_kept h
  exact ⟨y, List.mem_of_find?_eq_some hy, heq⟩

/-! ### The first entry and the first that is kept -/

/-- Accepted entries stand first among those that are kept, too. -/
theorem exists_kept_eq_cons (h : ∃ x ∈ r.kept, x.accepted = true) :
    ∃ first rest, r.kept = first :: rest ∧ first.accepted = true := by
  obtain ⟨x, hx, haccepted⟩ := h
  obtain ⟨acceptedEntries, text, heq, hall, -⟩ := r.exists_split
  obtain ⟨met, hkept⟩ := LexicalEntry.firstOccurrences_append []
    (acceptedEntries.map LexicalEntry.withForm)
    ((LexicalEntry.substituting r.substituted text).map LexicalEntry.withForm)
  rw [← List.map_append, ← heq] at hkept
  change r.kept = _ at hkept
  cases hfirst : LexicalEntry.firstOccurrences []
      (acceptedEntries.map LexicalEntry.withForm) with
  | nil =>
    rw [hkept, hfirst, List.nil_append] at hx
    obtain ⟨y, hy, rfl⟩ := List.mem_map.mp (LexicalEntry.mem_of_mem_firstOccurrences hx)
    obtain ⟨term, -, rfl⟩ := List.mem_map.mp hy
    cases haccepted
  | cons first rest =>
    refine ⟨first, _, by rw [hkept, hfirst, List.cons_append], ?_⟩
    have hmem : first ∈ acceptedEntries.map LexicalEntry.withForm :=
      LexicalEntry.mem_of_mem_firstOccurrences (hfirst ▸ List.mem_cons_self)
    obtain ⟨y, hy, rfl⟩ := List.mem_map.mp hmem
    exact hall y hy

/-- The first accepted term is the term of the first entry. -/
theorem exists_entries_eq_cons (h : ∃ x ∈ r.kept, x.accepted = true) :
    ∃ y ys, r.entries = y :: ys ∧ y.accepted = true ∧ leadingForm r.accepted = some y.form := by
  obtain ⟨x, hx, haccepted⟩ := h
  obtain ⟨z, hz, rfl⟩ := mem_entries_of_mem_kept hx
  obtain ⟨acceptedEntries, text, heq, hall, hterms⟩ := r.exists_split
  cases acceptedEntries with
  | nil =>
    rw [heq, List.nil_append] at hz
    obtain ⟨term, -, rfl⟩ := List.mem_map.mp hz
    cases haccepted
  | cons y acceptedEntries =>
    refine ⟨y, _, heq.trans List.cons_append, hall y List.mem_cons_self, ?_⟩
    rw [leadingForm, ← hterms]
    rfl

theorem kept_of_form_ne (heq : r.entries = y :: ys) (hform : y.form ≠ "") :
    ∃ rest, r.kept = y.withForm :: rest := by
  rw [kept, heq, List.map_cons, LexicalEntry.firstOccurrences, if_neg]
  · exact ⟨_, rfl⟩
  · simpa [LexicalEntry.withForm] using hform

theorem kept_of_form_eq (heq : r.entries = y :: ys) (hform : y.form = "") :
    r.kept = LexicalEntry.firstOccurrences [] (ys.map LexicalEntry.withForm) := by
  rw [kept, heq, List.map_cons, LexicalEntry.firstOccurrences, if_pos]
  simp [LexicalEntry.withForm, hform]

theorem leadsBlank_iff (hlead : leadingForm r.accepted = some y.form) :
    r.LeadsBlank ↔ y.form = "" := by
  rw [LeadsBlank, hlead, Option.some_inj]

/-! ### What substituted forms show -/

theorem exists_canonical_split (h : r.showsCanonical = true) :
    ∃ accepted, (∀ x ∈ accepted, x.accepted = true ∧ x.text = .verbatim) ∧
      r.entries = accepted ++ LexicalEntry.substituting r.substituted
        (.replace ((leadingForm r.accepted).getD "")) := by
  have hsequence : ∀ t : TermSequence,
      ∃ accepted : List LexicalEntry, (∀ x ∈ accepted, x.accepted = true ∧ x.text = .verbatim) ∧
        t.entries = accepted ++ LexicalEntry.substituting t.substituted
          (.replace ((leadingForm (t.accepted.map (·.term))).getD "")) := by
    intro t
    refine ⟨t.accepted.map fun a =>
      { term := a.term, text := .verbatim, insertionCost := a.insertionCost, accepted := true },
      fun x hx => ?_, ?_⟩
    · obtain ⟨a, -, rfl⟩ := List.mem_map.mp hx
      exact ⟨rfl, rfl⟩
    · simp [TermSequence.entries, leadingForm, Function.comp_def]
  cases r with
  | termSequence t => simpa [entries, accepted, groups, substituted] using hsequence t
  | word name terms others cost =>
    have hterms : (TermSequence.word name terms others cost).accepted.map (·.term) = terms := by
      cases terms <;> simp [TermSequence.word, Function.comp_def]
    have hothers : (TermSequence.word name terms others cost).substituted = others := rfl
    simpa [entries, accepted, groups, substituted, hterms, hothers] using
      hsequence (.word name terms others cost)
  | verb v => cases h
  | pronoun p => cases h

/-- A substituted form shows the first accepted term, blank or not. -/
theorem text_of_substituted (h : r.showsCanonical = true) (hx : x ∈ r.kept)
    (hsubstituted : x.accepted = false) :
    x.text = .replace ((leadingForm r.accepted).getD "") := by
  obtain ⟨y, hy, rfl⟩ := mem_entries_of_mem_kept hx
  obtain ⟨acceptedEntries, hall, heq⟩ := exists_canonical_split h
  rw [heq] at hy
  rcases List.mem_append.mp hy with hy | hy
  · cases hsubstituted.symm.trans (hall y hy).1
  · obtain ⟨term, -, rfl⟩ := List.mem_map.mp hy
    rfl

theorem text_ne_of_showsCanonical (h : r.showsCanonical = true) (hx : x ∈ r.kept)
    (table : Inflections) : x.text ≠ .inflected table := by
  obtain ⟨y, hy, rfl⟩ := mem_entries_of_mem_kept hx
  obtain ⟨acceptedEntries, hall, heq⟩ := exists_canonical_split h
  rw [heq] at hy
  change y.text ≠ _
  rcases List.mem_append.mp hy with hy | hy
  · rw [(hall y hy).2]
    nofun
  · obtain ⟨term, -, rfl⟩ := List.mem_map.mp hy
    nofun

/-! ### The table of forms -/

theorem text_of_mem_ofForms {text : DisplayText} {cost : Option Float}
    {groups : List (List String × Features)} (h : x ∈ LexicalEntry.ofForms text cost groups) :
    x.text = text := by
  have hmem : x.text ∈ (LexicalEntry.ofForms text cost groups).map (·.text) :=
    List.mem_map_of_mem h
  rw [LexicalEntry.ofForms, map_modifyHead_eq (f := fun x => { x with insertionCost := cost })
    fun _ => rfl] at hmem
  obtain ⟨y, hy, heq⟩ := List.mem_map.mp hmem
  obtain ⟨group, -, hy⟩ := List.mem_flatMap.mp hy
  obtain ⟨term, -, rfl⟩ := List.mem_map.mp hy
  exact heq.symm

/-- Every entry of a verb or a pronoun shows the first terms of the groups. -/
theorem exists_table (h : r.showsCanonical = false) :
    ∃ table, (∀ x ∈ r.entries, x.text = .inflected table) ∧
      table.present = r.groups.filterMap fun group => leadingForm group.1 := by
  have htext : ∀ text cost groups terms,
      ∀ x ∈ LexicalEntry.ofForms text cost groups ++ LexicalEntry.substituting terms text,
        x.text = text := by
    intro text cost groups terms x hx
    rcases List.mem_append.mp hx with hx | hx
    · exact text_of_mem_ofForms hx
    · obtain ⟨term, -, rfl⟩ := List.mem_map.mp hx
      rfl
  cases r with
  | termSequence t => cases h
  | word name terms others cost => cases h
  | verb v => exact ⟨_, htext _ _ _ _, by simp [Inflections.present, groups, List.filterMap]⟩
  | pronoun p => exact ⟨_, htext _ _ _ _, by simp [Inflections.present, groups, List.filterMap]⟩

/-! ### The insertion cost -/

theorem exists_ofForms_eq (text : DisplayText) (cost : Option Float)
    (groups : List (List String × Features)) : ∃ plain : List LexicalEntry,
      LexicalEntry.ofForms text cost groups =
        plain.modifyHead (fun x => { x with insertionCost := cost }) ∧
      ∀ x ∈ plain, x.insertionCost = none := by
  refine ⟨_, rfl, fun x hx => ?_⟩
  obtain ⟨group, -, hx⟩ := List.mem_flatMap.mp hx
  obtain ⟨term, -, rfl⟩ := List.mem_map.mp hx
  rfl

/-- Of the entries of a word, a verb or a pronoun the cost stands with the first accepted one. -/
theorem exists_priced (hcost : r.insertionCost = some cost) :
    ∃ (plain : List LexicalEntry) (terms : List String) (text : DisplayText),
      r.entries = (plain.modifyHead fun x => { x with insertionCost := r.insertionCost }) ++
        LexicalEntry.substituting terms text ∧
      ∀ x ∈ plain, x.insertionCost = none := by
  cases r with
  | termSequence t => cases hcost
  | word name terms others cost' =>
    refine ⟨terms.map fun term => { term := term, text := .verbatim, accepted := true }, others,
      .replace ((leadingForm terms).getD ""), ?_, fun x hx => ?_⟩
    · cases terms <;>
        simp [entries, TermSequence.entries, TermSequence.word, leadingForm, insertionCost,
          Function.comp_def]
    · obtain ⟨term, -, rfl⟩ := List.mem_map.mp hx
      rfl
  | verb v =>
    obtain ⟨plain, heq, hplain⟩ := exists_ofForms_eq (.inflected _) v.insertionCost _
    exact ⟨plain, v.substituted, _, congrArg (· ++ _) heq, hplain⟩
  | pronoun p =>
    obtain ⟨plain, heq, hplain⟩ := exists_ofForms_eq (.inflected _) p.insertionCost _
    exact ⟨plain, p.substituted, _, congrArg (· ++ _) heq, hplain⟩

theorem insertionCost_entries (hcost : r.insertionCost = some cost) (heq : r.entries = y :: ys)
    (hy : y.accepted = true) :
    y.insertionCost = some cost ∧ ∀ x ∈ ys, x.insertionCost = none := by
  obtain ⟨plain, terms, text, hentries, hplain⟩ := exists_priced hcost
  have hothers : ∀ x ∈ LexicalEntry.substituting terms text,
      x.insertionCost = none ∧ x.accepted = false := by
    intro x hx
    obtain ⟨term, -, rfl⟩ := List.mem_map.mp hx
    exact ⟨rfl, rfl⟩
  rw [heq, hcost] at hentries
  cases plain with
  | nil =>
    rw [List.modifyHead_nil, List.nil_append] at hentries
    cases hy.symm.trans (hothers y (hentries ▸ List.mem_cons_self)).2
  | cons z plain =>
    rw [List.modifyHead_cons, List.cons_append] at hentries
    obtain ⟨rfl, rfl⟩ := List.cons.inj hentries
    refine ⟨rfl, fun x hx => ?_⟩
    rcases List.mem_append.mp hx with hx | hx
    · exact hplain x (List.mem_cons_of_mem _ hx)
    · exact (hothers x hx).1

/-! ### Requests that are accepted -/

theorem showsFirst_iff (hkept : ∃ x ∈ r.kept, x.accepted = true) (h : r.showsCanonical = true) :
    r.ShowsFirst ↔ ¬ r.LeadsBlank ∨ ∀ x ∈ r.kept, x.accepted = true := by
  obtain ⟨first, rest, hfirst, -⟩ := exists_kept_eq_cons hkept
  obtain ⟨y, ys, heq, -, hlead⟩ := exists_entries_eq_cons hkept
  have hne : first.term ≠ "" :=
    LexicalEntry.term_ne_of_mem_firstOccurrences (hfirst ▸ List.mem_cons_self : first ∈ r.kept)
  have hshown : ∀ x ∈ r.kept, x.accepted = false → x.text = .replace y.form := by
    intro x hx hsubstituted
    rw [text_of_substituted h hx hsubstituted, hlead, Option.getD_some]
  rw [leadsBlank_iff hlead]
  constructor
  · rintro ⟨_, hhead, hall⟩
    obtain rfl : first = _ := by simpa [hfirst] using hhead
    refine or_iff_not_imp_left.mpr fun hblank x hx => ?_
    by_contra hnot
    have hsubstituted : x.accepted = false := by simpa using hnot
    have htext := (hall x hx hsubstituted).symm.trans (hshown x hx hsubstituted)
    rw [DisplayText.replace.injEq, not_not.mp hblank] at htext
    exact hne htext
  · intro hor
    refine ⟨first, by simp [hfirst], fun x hx hsubstituted => ?_⟩
    rcases hor with hform | hall
    · obtain ⟨rest', hkept'⟩ := kept_of_form_ne heq hform
      obtain ⟨rfl, -⟩ := List.cons.inj (hfirst.symm.trans hkept')
      exact hshown x hx hsubstituted
    · cases hsubstituted.symm.trans (hall x hx)

theorem firstCosts_iff (hkept : ∃ x ∈ r.kept, x.accepted = true)
    (hcost : r.insertionCost = some cost) : r.FirstCosts cost ↔ ¬ r.LeadsBlank := by
  obtain ⟨first, rest, hfirst, -⟩ := exists_kept_eq_cons hkept
  obtain ⟨y, ys, heq, hy, hlead⟩ := exists_entries_eq_cons hkept
  obtain ⟨hpriced, hplain⟩ := insertionCost_entries hcost heq hy
  rw [leadsBlank_iff hlead]
  constructor
  · rintro ⟨_, hhead, hpriced⟩ hform
    obtain rfl : first = _ := by simpa [hfirst] using hhead
    -- The entry with the cost is dropped, and the others have none.
    have hmem : first ∈ r.kept := hfirst ▸ List.mem_cons_self
    rw [kept_of_form_eq heq hform] at hmem
    obtain ⟨x, hx, rfl⟩ := List.mem_map.mp (LexicalEntry.mem_of_mem_firstOccurrences hmem)
    cases hpriced.symm.trans (hplain x hx)
  · intro hform
    obtain ⟨rest', hkept'⟩ := kept_of_form_ne heq hform
    exact ⟨y.withForm, by simp [hkept'], hpriced⟩

/-- A term that is accepted and not blank has an accepted rule. -/
theorem exists_mem_kept_of_accepted {term : String} (hterm : term ∈ r.accepted)
    (hform : Name.normalizeTerm term ≠ "") :
    ∃ x ∈ r.kept, x.accepted = true ∧ x.term = Name.normalizeTerm term := by
  obtain ⟨acceptedEntries, text, heq, hall, hterms⟩ := r.exists_split
  rw [← hterms] at hterm
  obtain ⟨y, hy, rfl⟩ := List.mem_map.mp hterm
  have hmem : y ∈ r.entries := by
    rw [heq]
    exact List.mem_append_left _ hy
  have hkept : y.form ∈ r.kept.map (·.term) := by
    rw [r.terms_kept, LexicalEntry.mem_forms_iff]
    exact ⟨hform, y, hmem, rfl⟩
  obtain ⟨x, hx, hsame⟩ := List.mem_map.mp hkept
  exact ⟨x, hx, accepted_of_mem_kept hx hmem (hall y hy) hsame.symm, hsame⟩

theorem tablesAccepted_iff (hkept : ∃ x ∈ r.kept, x.accepted = true) :
    r.TablesAccepted ↔
      (r.showsCanonical = false → ∀ group ∈ r.groups, leadingForm group.1 ≠ some "") := by
  cases hshows : r.showsCanonical with
  | true =>
    have hno : r.TablesAccepted := fun x hx table htext =>
      absurd htext (text_ne_of_showsCanonical hshows hx table)
    simpa using hno
  | false =>
    obtain ⟨table, htexts, hpresent⟩ := exists_table hshows
    have hshown : ∀ x ∈ r.kept, x.text = .inflected table := by
      intro x hx
      obtain ⟨y, hy, rfl⟩ := mem_entries_of_mem_kept hx
      exact htexts y hy
    simp only [forall_const]
    constructor
    · intro h group hgroup hblank
      obtain ⟨x, hx, -⟩ := hkept
      refine (h x hx table (hshown x hx) "" ?_).1 rfl
      rw [hpresent]
      exact List.mem_filterMap.mpr ⟨group, hgroup, hblank⟩
    · intro h x hx table' htext form hform
      obtain rfl := DisplayText.inflected.inj ((hshown x hx).symm.trans htext)
      rw [hpresent] at hform
      obtain ⟨group, hgroup, hlead⟩ := List.mem_filterMap.mp hform
      have hne : form ≠ "" := fun hblank => h group hgroup (hblank ▸ hlead)
      obtain ⟨term, hterm, rfl⟩ := Option.map_eq_some_iff.mp hlead
      have hmem : term ∈ r.accepted :=
        List.mem_flatMap.mpr ⟨group, hgroup, List.mem_of_mem_head? hterm⟩
      exact ⟨hne, exists_mem_kept_of_accepted hmem hne⟩

/-- The first rule of a registered symbol is that of an accepted form. The substituted forms of a
word or a phrase show it, unless the first accepted term is blank; the insertion cost of a word, a
verb or a pronoun stands with it under the same condition; and the tables of a verb or a pronoun
have accepted forms only, unless a group starts with a blank term. -/
theorem leading_exactly (h : r.register d = .ok (id, e)) :
    e.rules id = r.kept.map (LexicalEntry.toRule r.semantic) ∧
      (∃ first ∈ r.kept.head?, first.accepted = true) ∧
      (r.showsCanonical = true →
        (r.ShowsFirst ↔ ¬ r.LeadsBlank ∨ ∀ x ∈ r.kept, x.accepted = true)) ∧
      (∀ cost, r.insertionCost = some cost → (r.FirstCosts cost ↔ ¬ r.LeadsBlank)) ∧
      (r.TablesAccepted ↔
        (r.showsCanonical = false → ∀ group ∈ r.groups, leadingForm group.1 ≠ some "")) := by
  obtain ⟨name, -, happended, hkept⟩ := registered_of_register h
  obtain ⟨first, rest, hfirst, haccepted⟩ := exists_kept_eq_cons hkept
  refine ⟨?_, ⟨first, by simp [hfirst], haccepted⟩, showsFirst_iff hkept,
    fun cost => firstCosts_iff hkept, tablesAccepted_iff hkept⟩
  obtain ⟨rfl, rfl⟩ := Prod.mk.inj happended
  exact Draft.rules_of_get? (Draft.get?_appendSymbol_self d rfl)

/-- Blank and repeated terms after the first do not matter. -/
def farewell : LexicalRequest := word "farewell" ["Bye", " "] ["BYE", "bye bye"] none

theorem leading_exactly_farewell :
    ∃ id e, farewell.register Draft.empty = .ok (id, e) ∧
      e.rules id = farewell.kept.map (LexicalEntry.toRule none) ∧ farewell.ShowsFirst := by
  have hok : (farewell.register Draft.empty).isOk = true := by decide +kernel
  obtain ⟨⟨id, e⟩, h⟩ := exists_of_isOk hok
  obtain ⟨hrules, -, hshows, -⟩ := leading_exactly h
  have hlead : leadingForm farewell.accepted ≠ some "" := by decide +kernel
  exact ⟨id, e, h, hrules, (hshows rfl).mpr (.inl hlead)⟩

/-- The first accepted term of this word is blank. -/
def greeting : LexicalRequest := word "greeting" ["  ", "hello"] ["hi"] none

theorem exists_not_showsFirst :
    ∃ id e, greeting.register Draft.empty = .ok (id, e) ∧ greeting.showsCanonical = true ∧
      ¬ greeting.ShowsFirst := by
  have hok : (greeting.register Draft.empty).isOk = true := by decide +kernel
  obtain ⟨⟨id, e⟩, h⟩ := exists_of_isOk hok
  refine ⟨id, e, h, rfl, ?_⟩
  rintro ⟨first, hfirst, hall⟩
  have hkept : greeting.kept.map (fun x => (x.term, x.accepted, x.text)) =
      [("hello", true, .verbatim), ("hi", false, .replace "")] := by decide +kernel
  have hterm : first.term = "hello" := by
    have hhead := congrArg List.head? hkept
    rw [List.head?_map, Option.mem_def.mp hfirst] at hhead
    exact congrArg Prod.fst (Option.some.inj hhead)
  obtain ⟨x, hx, heq⟩ : ∃ x ∈ greeting.kept,
      (x.term, x.accepted, x.text) = ("hi", false, .replace "") :=
    List.mem_map.mp (hkept ▸ by simp)
  obtain ⟨-, haccepted, htext⟩ : x.term = "hi" ∧ x.accepted = false ∧ x.text = .replace "" := by
    simpa using heq
  have hshown := htext.symm.trans (hall x hx haccepted)
  rw [DisplayText.replace.injEq, hterm] at hshown
  exact absurd hshown (by decide)

end LexicalRequest

end QueryGrammar
