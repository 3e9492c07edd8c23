import QueryGrammar.Proofs.Named.Finished
import QueryGrammar.Proofs.Workspace.Names
/-!
Modules in different orders. As long as they only register, and say the same by name in the end, all
that their documents can differ in is what the search for insertions finds. It can differ: a candidate
stays when the part it was made of is supplied in a cheaper way later, even if nothing can be made of
the cheaper part, so it matters which symbols are tried before that way is found.
-/
namespace QueryGrammar

open Change Registration Workspace

/-- All that the module does with a workspace, it does by registering. -/
def ContentModule.Registers (m : ContentModule) : Prop := Keeps Registered m.register

theorem RegistrationCall.keepsRegistered {α : Type} {x : Registration α} (h : RegistrationCall x) :
    Keeps Registered x := fun _ hws => .call hws h

theorem registered_registerAll {modules : List ContentModule} (h : ∀ m ∈ modules, m.Registers) :
    Registered (registerAll modules {}).2 :=
  keeps_registerAll h .init

/-- Modules that register the same by name are compiled to the same document, in whatever order and
by whatever calls they do it, exactly when the same insertions are found for both. -/
theorem toJson_compile_eq_iff {modules others : List ContentModule} {o : Options}
    (hmodules : ∀ m ∈ modules, m.Registers) (hothers : ∀ m ∈ others, m.Registers)
    (hsame : (registeredDraft modules).SameContent (registeredDraft others))
    (hunsigned : (registeredDraft modules).Unsigned) {c c' : Compilation}
    (h : compile modules o = .ok c) (h' : compile others o = .ok c') :
    c.grammar.toJson = c'.grammar.toJson ↔ ∀ name key,
      ((registeredDraft modules).prepared.InsertionRow o.includeTrees).Writes name key ↔
        ((registeredDraft others).prepared.InsertionRow o.includeTrees).Writes name key := by
  obtain ⟨e, hfinish⟩ := exists_of_compile h
  obtain ⟨e', hfinish'⟩ := exists_of_compile h'
  have hregistered := registered_registerAll hmodules
  have hregistered' := registered_registerAll hothers
  have hname := hregistered.built.symbolName_start.trans hregistered'.built.symbolName_start.symm
  exact hsame.toJson_eq_iff hregistered.sound hregistered'.sound hregistered.built.consistent
    hregistered'.built.consistent hunsigned hname hfinish hfinish'

/-- A module that gives the start symbol a word. -/
def greeting (word : String) : ContentModule where
  name := word
  register := Registration.addRule Draft.start (.terminal word .verbatim)

theorem registers_greeting (word : String) : (greeting word).Registers :=
  (RegistrationCall.addRule _ _).keepsRegistered

/-- A draft with these words for its start symbol. -/
def wordsDraft (words : List String) : Draft :=
  { Draft.empty with
    symbols := [{ name := "[start]"
                  rules := words.map fun word => { expansion := .terminal word .verbatim } }] }

theorem mem_rules_wordsDraft {words : List String} {X : SymbolId} {r : Rule} :
    r ∈ (wordsDraft words).rules X ↔
      X = Draft.start ∧ ∃ word ∈ words, r = { expansion := .terminal word .verbatim } := by
  obtain ⟨_ | i⟩ := X
  · simp [wordsDraft, Draft.rules, Draft.get?, Option.filter, Draft.start, eq_comm]
  · simp [wordsDraft, Draft.rules, Draft.get?, Draft.start]

theorem hasRow_wordsDraft {words : List String} {name : String} {row : NamedRule} :
    (wordsDraft words).HasRow name row ↔
      name = "[start]" ∧ ∃ word ∈ words, row = { rhs := .terminal word } := by
  simp only [Draft.HasRow, mem_rules_wordsDraft]
  constructor
  · rintro ⟨X, r, ⟨rfl, word, hword, rfl⟩, rfl, rfl⟩
    exact ⟨rfl, word, hword, rfl⟩
  · rintro ⟨rfl, word, hword, rfl⟩
    exact ⟨Draft.start, _, ⟨rfl, word, hword, rfl⟩, rfl, rfl⟩

theorem sameContent_wordsDraft {words others : List String} (h : words.Perm others) :
    (wordsDraft words).SameContent (wordsDraft others) where
  definitions _ := Iff.rfl
  categories _ _ := Iff.rfl
  rows := by
    funext name row
    simp only [hasRow_wordsDraft, h.mem_iff]
  awaits := by
    funext name conflicting
    simp [Draft.Awaits, wordsDraft, Draft.empty]

theorem unsigned_wordsDraft (words : List String) : (wordsDraft words).Unsigned := by
  intro X r hr
  obtain ⟨-, word, -, rfl⟩ := mem_rules_wordsDraft.mp hr
  simp [Rule.Unsigned, Rule.costs, Expansion.costs]

/-- Nothing can be left out of a lexical rule. -/
theorem Draft.not_writes_insertionRow {d : Draft}
    (h : (d.symbols.all fun s => s.rules.all (·.expansion.isLexical)) = true) (includeTrees : Bool)
    (name key : String) : ¬ (d.InsertionRow includeTrees).Writes name key := by
  rintro ⟨row, ⟨X, parent, hparent, r, hr, -⟩, -⟩
  obtain ⟨s, hs⟩ := mem_liveSymbols_iff.mp (live_of_mem_rules hparent)
  have hmem := List.mem_of_getElem? (get?_eq_some_iff.mp hs).1
  have hlexical := List.all_eq_true.mp (List.all_eq_true.mp h s hmem) parent
    (rules_of_get? hs ▸ hparent)
  obtain ⟨_, _, _, _, -, hx, -⟩ := mem_insertionsOf_cases hr
  simp [hx, Expansion.isLexical] at hlexical

/-- Two words are compiled to the same document in both orders. -/
theorem toJson_compile_greetings : ∃ c c' : Compilation,
    compile [greeting "hi", greeting "hello"] {} = .ok c ∧
      compile [greeting "hello", greeting "hi"] {} = .ok c' ∧ c.grammar.toJson = c'.grammar.toJson := by
  have hregisters : ∀ words : List String, ∀ m ∈ words.map greeting, m.Registers := by
    simp [registers_greeting]
  have hok : (compile [greeting "hi", greeting "hello"] {}).isOk = true := by decide +kernel
  have hok' : (compile [greeting "hello", greeting "hi"] {}).isOk = true := by decide +kernel
  obtain ⟨c, h⟩ := exists_of_isOk hok
  obtain ⟨c', h'⟩ := exists_of_isOk hok'
  have hdraft : registeredDraft [greeting "hi", greeting "hello"] = wordsDraft ["hi", "hello"] := rfl
  have hdraft' : registeredDraft [greeting "hello", greeting "hi"] = wordsDraft ["hello", "hi"] := rfl
  have hsame : (registeredDraft [greeting "hi", greeting "hello"]).SameContent
      (registeredDraft [greeting "hello", greeting "hi"]) := by
    rw [hdraft, hdraft']
    exact sameContent_wordsDraft (.swap _ _ _)
  have hnone := Draft.not_writes_insertionRow
    (d := (registeredDraft [greeting "hi", greeting "hello"]).prepared) (by decide +kernel) false
  have hnone' := Draft.not_writes_insertionRow
    (d := (registeredDraft [greeting "hello", greeting "hi"]).prepared) (by decide +kernel) false
  refine ⟨c, c', h, h', (toJson_compile_eq_iff (hregisters ["hi", "hello"])
    (hregisters ["hello", "hi"]) hsame (hdraft ▸ unsigned_wordsDraft _) h h').mpr fun name key => ?_⟩
  exact iff_of_false (hnone name key) (hnone' name key)

/-- A module that wants two categories. -/
def kinds : ContentModule where
  name := "kinds"
  register := do
    let _ ← category { singular := "user", plural := "users" }
    let _ ← category { singular := "thing", plural := "things" }

/-- A module that wants the same categories the other way round. Its users can be described by a color
that means something and, which is cheaper, as things are, which means nothing. -/
def hues : ContentModule where
  name := "hues"
  register := do
    let thing ← category { singular := "thing", plural := "things" }
    let user ← category { singular := "user", plural := "users" }
    let color ← semantic (.argument "color")
    let shown ← semantic (.function "shown" 1 1)
    addRule thing.adjective { rhs := .terminal "red" .verbatim, insertionCost := some 0.5 }
    addRule user.adjective
      { rhs := .terminal "blue" .verbatim
        semantic := some (.fixed [.mk color []])
        insertionCost := some 1.0 }
    addRule user.adjective (.unary thing.adjective)
    addRule user.passive ((Proposal.unary user.adjective).deferred [shown])
    addBinaryRule Draft.start (.binary user.passive user.term)

theorem registers_kinds : kinds.Registers :=
  .bind (RegistrationCall.category _).keepsRegistered fun _ =>
    .bind (RegistrationCall.category _).keepsRegistered fun _ => .pure _

theorem registers_hues : hues.Registers :=
  .bind (RegistrationCall.category _).keepsRegistered fun _ =>
    .bind (RegistrationCall.category _).keepsRegistered fun _ =>
      .bind (RegistrationCall.semantic _).keepsRegistered fun _ =>
        .bind (RegistrationCall.semantic _).keepsRegistered fun _ =>
          .bind (RegistrationCall.addRule _ _).keepsRegistered fun _ =>
            .bind (RegistrationCall.addRule _ _).keepsRegistered fun _ =>
              .bind (RegistrationCall.addRule _ _).keepsRegistered fun _ =>
                .bind (RegistrationCall.addRule _ _).keepsRegistered fun _ =>
                  (RegistrationCall.addBinaryRule _ _).keepsRegistered

/-- How many rows a document has for its start symbol. -/
def Document.startRows (g : Document) : Option Nat :=
  (g.ruleSets.find? g.startSymbol).map List.length

/-- With the users first, the passive of users is made of "blue" before "red" is found. With the
things first "red" is found at once, and nothing can be made of it. -/
theorem exists_compile_swap_ne : ∃ (a b : ContentModule) (o : Options) (c c' : Compilation),
    a.Registers ∧ b.Registers ∧ compile [a, b] o = .ok c ∧ compile [b, a] o = .ok c' ∧
      c.grammar ≠ c'.grammar := by
  have htwo : (compile [kinds, hues] { quiet := true }).toOption.map (·.grammar.startRows) =
      some (some 2) := by decide +kernel
  have hone : (compile [hues, kinds] { quiet := true }).toOption.map (·.grammar.startRows) =
      some (some 1) := by decide +kernel
  obtain ⟨c, hc, hrows⟩ := Option.map_eq_some_iff.mp htwo
  obtain ⟨c', hc', hrows'⟩ := Option.map_eq_some_iff.mp hone
  refine ⟨kinds, hues, { quiet := true }, c, c', registers_kinds, registers_hues,
    toOption_eq_some_iff.mp hc, toOption_eq_some_iff.mp hc', fun heq => ?_⟩
  rw [heq, hrows'] at hrows
  exact absurd hrows (by decide)

end QueryGrammar
