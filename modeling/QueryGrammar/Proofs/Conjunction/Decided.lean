import QueryGrammar.Proofs.Workspace.SharedWords
/-!
Which conjunctions are accepted. At a stage where the names of the family look free, a conjunction
fails only for two reasons: a name is that of something pruned, or the connectives have been pruned
since they were registered.
-/
namespace QueryGrammar

open Change Conjunction Draft

/-- The name parts of connectives that are yet to be registered. -/
def connectiveParts (known : Option Connectives) : List String :=
  if known.isSome then [] else ["and", "or", "comma"]

namespace Draft

/-- The connectives that are known or else come next. -/
def connectivesAt (d : Draft) (a : Additions) (known : Option Connectives) : Connectives :=
  known.getD
    { and := ⟨d.symbols.length + a.symbols.length⟩
      or := ⟨d.symbols.length + a.symbols.length + 1⟩
      comma := ⟨d.symbols.length + a.symbols.length + 2⟩
      intersect := ⟨d.vocabulary.size + a.semantics.length⟩
      union := ⟨d.vocabulary.size + a.semantics.length + 1⟩ }

/-- The words of connectives that are known. -/
def separators (known : Option Connectives) : List SymbolId :=
  (known.map fun c => [c.and, c.or, c.comma]).getD []

/-- At this stage a family of this stem could be registered, as far as the live symbols show. -/
structure FamilyOpen (d : Draft) (a : Additions) (known : Option Connectives) (stem : String) : Prop where
  room : d.Room a (connectiveParts known ++ (familyNames stem).toList)
  semantics : known = none → ∀ k ∈ d.vocabulary.definitions ++ a.semantics,
    k.name ≠ intersectName ∧ k.name ≠ unionName
  known : ∀ X ∈ separators known, X.index < d.symbols.length

/-- Nothing that has been pruned is in the way of a family of this stem. -/
structure FamilyFits (d : Draft) (known : Option Connectives) (stem : String) : Prop where
  names : d.Unburied (connectiveParts known ++ (familyNames stem).toList)
  separators : ∀ X ∈ separators known, X ∈ d.liveSymbols

def Additions.connect (a : Additions) (known : Option Connectives) : Additions :=
  if known.isSome then a
  else
    { a.addWords ["and", "or", "comma"] with
      semantics := a.semantics ++ [.function intersectName 1 maxOperands,
        .function unionName 1 maxOperands] }

end Draft

/-! ### Words that are registered on first use -/

theorem isWord_and : IsWord "and" ["and"] ["&"] (some andInsertionCost) :=
  ⟨.empty, exists_of_isOk (by decide +kernel)⟩

theorem isWord_or : IsWord "or" ["or"] [] none := ⟨.empty, exists_of_isOk (by decide +kernel)⟩

theorem isWord_comma : IsWord "comma" [","] [] none := ⟨.empty, exists_of_isOk (by decide +kernel)⟩

namespace Stage

variable {count : Nat} {d : Draft} {a : Additions} {r : Workspace}

theorem checkConnectiveNames_eq {t : Workspace} (ht : Stage count d a r t)
    (hroom : d.Room a (connectiveParts r.connectives))
    (hnames : r.connectives = none → ∀ k ∈ d.vocabulary.definitions ++ a.semantics,
      k.name ≠ intersectName ∧ k.name ≠ unionName) :
    checkConnectiveNames t = .ok () := by
  unfold checkConnectiveNames
  rw [ht.connectives]
  cases hknown : r.connectives with
  | some c => rfl
  | none =>
    rw [hknown] at hroom
    have hfree : ∀ part ∈ ["and", "or", "comma"],
        t.draft.checkFree (Name.bracketed part) = .ok () := by
      intro part hpart
      simp [checkFree, ht.draft.find?_eq_none (hroom.vacant_of_mem hpart)]
    have hsemantics : ∀ name ∈ [intersectName, unionName],
        checkSemanticFree t.draft name = .ok () := by
      intro name hname
      have hnone : t.draft.vocabulary.find? name = none := by
        rw [Vocabulary.find?, Option.map_eq_none_iff, List.findIdx?_eq_none_iff, ht.draft.definitions]
        intro k hk
        have hne := hnames hknown k hk
        rcases List.mem_pair.mp hname with rfl | rfl
        · simpa using hne.1
        · simpa using hne.2
      simp [checkSemanticFree, hnone]
    have hfirst : ["[and]", "[or]", "[comma]"].forM t.draft.checkFree = .ok () := by
      refine Outcome.forM_eq_ok_iff.mpr fun name hname => ?_
      have hmap : name ∈ ["and", "or", "comma"].map Name.bracketed := hname
      obtain ⟨part, hpart, rfl⟩ := List.mem_map.mp hmap
      exact hfree part hpart
    simp only [hfirst, Outcome.forM_eq_ok_iff.mpr hsemantics, Option.isSome_none, Bool.false_eq_true,
      if_false, bind, Except.bind]

theorem rooted_connect {t : Workspace} (ht : Stage count d (a.connect none) r t) :
    Rooted count { t with connectives := some (connectivesAt d a none) } where
  count := ht.rooted.count
  operands := ht.rooted.operands
  words := ht.rooted.words
  functions c hc := by
    obtain rfl := Option.some.inj hc
    have hdefinitions := ht.draft.definitions
    have hget : ∀ i, t.draft.vocabulary.definitions[d.vocabulary.size + a.semantics.length + i]? =
        [Semantic.function intersectName 1 maxOperands, .function unionName 1 maxOperands][i]? := by
      intro i
      rw [hdefinitions, show (a.connect none).semantics = a.semantics ++ _ from rfl,
        ← List.append_assoc, List.getElem?_append_right (by simp [Vocabulary.size])]
      simp [Vocabulary.size]
    exact ⟨hget 0, hget 1⟩

/-- The connectives are taken or registered. -/
theorem connectivesOnce (hroom : d.Room a (connectiveParts r.connectives))
    (hnames : r.connectives = none → ∀ k ∈ d.vocabulary.definitions ++ a.semantics,
      k.name ≠ intersectName ∧ k.name ≠ unionName) :
    Decides (Rooted count) (Stage count d a r) Workspace.connectivesOnce
      (d.Unburied (connectiveParts r.connectives)) (connectivesAt d a r.connectives)
      (Stage count d (a.connect r.connectives)
        { r with connectives := some (connectivesAt d a r.connectives) }) := by
  have hfirst : ∀ t, Stage count d a r t → checkConnectiveNames t = .ok () :=
    fun t ht => checkConnectiveNames_eq ht hroom hnames
  unfold Workspace.connectivesOnce
  refine Decides.get_bind fun t ht => ?_
  rw [ht.connectives]
  cases hknown : r.connectives with
  | some c =>
    have hsame : { r with connectives := some c } = r := by rw [← hknown]
    simp only [connectivesAt, Additions.connect, Option.isSome_some, Option.getD_some, if_true, hsame]
    exact .done (by simp [connectiveParts]) rfl
  | none =>
    rw [hknown] at hroom
    have hneeds : d.Unburied (connectiveParts none) ↔ ¬ d.Buried (Name.bracketed "and") ∧
        ¬ d.Buried (Name.bracketed "or") ∧ ¬ d.Buried (Name.bracketed "comma") := by
      simp [connectiveParts, unburied_cons]
    have hroomAnd : d.Room a ("and" :: ["or", "comma"]) := hroom
    have hroomOr : d.Room (a.addSymbol "and" true) ("or" :: ["comma"]) := hroomAnd.next true
    have hroomComma := hroomOr.next true
    refine Decides.get_bind fun t ht => ?_
    refine (Decides.ofOutcome (hfirst t ht)).granted ?_
    refine (addWord hroomAnd.vacant isWord_and).step (fun h => (hneeds.mp h).1) fun hand => ?_
    refine (addWord hroomOr.vacant isWord_or).step (fun h => (hneeds.mp h).2.1) fun hor => ?_
    refine (addWord hroomComma.vacant isWord_comma).step (fun h => (hneeds.mp h).2.2) fun hcomma => ?_
    have hintersect : ∀ k ∈ d.vocabulary.definitions ++ a.semantics, k.name ≠ intersectName :=
      fun k hk => (hnames hknown k hk).1
    have hunion : ∀ k ∈ d.vocabulary.definitions ++
        (a.semantics ++ [.function intersectName 1 maxOperands]), k.name ≠ unionName := by
      intro k hk
      rw [← List.append_assoc] at hk
      rcases List.mem_append.mp hk with hk | hk
      · exact (hnames hknown k hk).2
      · rw [List.mem_singleton.mp hk]
        decide
    refine (newSemantic (by decide) hintersect (by decide) (by decide +kernel)).granted ?_
    refine (newSemantic (by decide) hunion (by decide) (by decide +kernel)).granted ?_
    have hadded : (((((a.addSymbol "and" true).addSymbol "or" true).addSymbol "comma" true).addSemantic
        (.function intersectName 1 maxOperands)).addSemantic (.function unionName 1 maxOperands)) =
          a.connect none := by
      simp [Additions.connect, Additions.addWords, Additions.addSymbol, Additions.addSemantic]
    rw [hadded]
    simp only [Additions.length_addSymbol, Additions.semantics_addSymbol,
      Additions.semantics_addSemantic, List.length_append, List.length_singleton]
    have hstored := store (f := fun ws => { ws with connectives := some (connectivesAt d a none) })
      (fun _ _ => rfl) fun t (ht : Stage count d (a.connect none) r t) => rooted_connect ht
    exact hstored.granted (.done (hneeds.mpr ⟨hand, hor, hcomma⟩) rfl)

/-! ### Symbols that are all tried -/

/-- The names that are buried in `d` are still taken. -/
structure Doomed (count : Nat) (d : Draft) (t : Workspace) : Prop where
  taken : ∀ name, d.Buried name → t.draft.isTaken name = true
  rooted : Rooted count t

theorem doomed {t : Workspace} (ht : Stage count d a r t) : Doomed count d t where
  taken name hburied := by
    obtain ⟨s, hs, rfl, -⟩ := hburied
    obtain ⟨added, hsymbols, -⟩ := ht.draft.exists_symbols
    exact isTaken_iff.mpr ⟨s, by simp [hsymbols, hs], rfl⟩
  rooted := ht.rooted

theorem Doomed.newSymbol {t : Workspace} (ht : Doomed count d t) (part : String) :
    (∀ id, ((Registration.newSymbol [part]).perform t).1 = .ok id →
        ¬ d.Buried (Name.bracketed part)) ∧
      Doomed count d ((Registration.newSymbol [part]).perform t).2 := by
  have hperform : (Registration.newSymbol [part]).perform t =
      (((Change.call (·.newSymbol [part])).perform t.draft).1,
        { t with draft := ((Change.call (·.newSymbol [part])).perform t.draft).2 }) := rfl
  rw [hperform, perform_call]
  cases hnew : t.draft.newSymbol [part] with
  | error err => exact ⟨by simp, ht⟩
  | ok p =>
    obtain ⟨id, e⟩ := p
    obtain ⟨name, hname, hfree, heq⟩ := newSymbolOf_eq hnew
    obtain ⟨rfl, rfl⟩ := Prod.mk.inj heq
    obtain rfl := Registration.eq_of_symbol hname
    refine ⟨fun _ _ hburied => ?_, ⟨fun other hburied => ?_, ?_⟩⟩
    · have htaken := ht.taken _ hburied
      rw [Name.bracketed, hfree] at htaken
      cases htaken
    · obtain ⟨s, hs, hother⟩ := isTaken_iff.mp (ht.taken other hburied)
      exact isTaken_iff.mpr ⟨s, List.mem_append_left _ hs, hother⟩
    · exact ht.rooted.mono (by simp) List.prefix_rfl

theorem Doomed.observe_bind {β : Type} {part : String} {f : Outcome SymbolId → Registration β}
    {D : Prop} {b : β} {R : Workspace → Prop}
    (hf : ∀ o : Outcome SymbolId, (∀ id, o = .ok id → ¬ d.Buried (Name.bracketed part)) →
      Decides (Rooted count) (Doomed count d) (f o) D b R) :
    Decides (Rooted count) (Doomed count d) ((Registration.newSymbol [part]).observe >>= f) D b R :=
  Decides.observe_bind (S := fun o => ∀ id, o = .ok id → ¬ d.Buried (Name.bracketed part))
    (fun _ ht => ht.newSymbol part) hf

theorem Doomed.ofOutcome_bind {α β : Type} {o : Outcome α} {f : α → Registration β} {D : Prop} {b : β}
    {R : Workspace → Prop} (hD : ¬D)
    (hf : ∀ a, o = .ok a → Decides (Rooted count) (Doomed count d) (f a) D b R) :
    Decides (Rooted count) (Doomed count d) (Change.ofOutcome o >>= f) D b R :=
  Decides.ofOutcome_bind (fun _ ht => ht.rooted) (fun _ _ => hD) hf

/-! ### Families -/

theorem room_connect {parts : List String} {known : Option Connectives}
    (h : d.Room a (connectiveParts known ++ parts)) : d.Room (a.connect known) parts := by
  cases known with
  | some c => exact h
  | none =>
    have hroom : d.Room a ("and" :: "or" :: "comma" :: parts) := h
    have hnext := ((hroom.next true).next true).next true
    exact { hnext with fresh := by simpa [Additions.connect, Additions.addWords, Additions.addSymbol,
      Additions.parts] using hnext.fresh }

theorem continued_connect (a : Additions) (known : Option Connectives) :
    a.Continued (a.connect known) := by
  cases known with
  | some c => exact .refl a
  | none => exact ⟨List.prefix_append _ _, List.prefix_append _ _⟩

theorem checkFamilyNames_eq {t : Workspace} {stem : String} (ht : Stage count d a r t)
    (hopen : d.FamilyOpen a r.connectives stem) : checkFamilyNames t stem = .ok () := by
  have hparts : (familyNames stem).toList.forM (checkPartFree t.draft) = .ok () := by
    refine Outcome.forM_eq_ok_iff.mpr fun part hpart => ?_
    exact ht.checkPartFree_eq (hopen.room.vacant_of_mem (List.mem_append_right _ hpart))
  have hconnectives := checkConnectiveNames_eq ht hopen.room.left hopen.semantics
  simp only [checkFamilyNames, hparts, hconnectives, bind, Except.bind]

/-- The family that a conjunction makes at a stage. -/
def familyAt (d : Draft) (a : Additions) (known : Option Connectives) (operand : SymbolId) : Family :=
  .next operand (connectivesAt d a known) (d.symbols.length + (a.connect known).symbols.length)

theorem observe_newSymbol {part : String} {X : SymbolId} (hpart : d.Vacant a part)
    (hfree : ¬ d.Buried (Name.bracketed part))
    (hX : X.index = d.symbols.length + a.symbols.length) :
    Decides (Rooted count) (Stage count d a r) (Registration.newSymbol [part]).observe True (.ok X)
      (Stage count d (a.addSymbol part false) r) := by
  obtain ⟨i⟩ := X
  obtain rfl : i = d.symbols.length + a.symbols.length := hX
  exact (newSymbol hpart).observe hfree

theorem defer_eq {v : Vocabulary} {id : SemanticId} {definition : Semantic}
    (h : v.get? id = some definition) (hfunction : definition.isArg = false) :
    v.defer [id] = .ok [id] := by
  have hdefinition : v.definition id = .ok definition := by simp [Vocabulary.definition, h]
  simp only [Vocabulary.defer, List.forM, List.forM_eq_forM, List.dropLast, hdefinition, hfunction, bind,
    Except.bind]
  rfl

/-- Connectives that come next are there when they are needed; known ones may be gone. -/
theorem stands_separators_iff {known : Option Connectives} {b : Additions}
    (hknown : ∀ X ∈ separators known, X.index < d.symbols.length)
    (hb : (a.connect known).symbols <+: b.symbols) :
    (∀ s, d.Stands b (separatorOf (connectivesAt d a known) s)) ↔
      ∀ X ∈ separators known, X ∈ d.liveSymbols := by
  cases known with
  | some c =>
    constructor
    · intro h X hX
      refine Stands.live (a := b) ?_ (hknown X hX)
      simp only [separators, Option.map_some, Option.getD_some, List.mem_cons, List.not_mem_nil,
        or_false] at hX
      rcases hX with rfl | rfl | rfl
      · exact h .and
      · exact h .or
      · exact h .comma
    · intro h s
      cases s <;> exact Or.inl (h _ (by simp [separators, separatorOf, connectivesAt]))
  | none =>
    have hlength : a.symbols.length + 3 ≤ b.symbols.length := by
      simpa [Additions.connect, Additions.addWords] using hb.length_le
    refine iff_of_true (fun s => Or.inr ?_) (by simp [separators])
    cases s <;> simp only [separatorOf, connectivesAt, Option.getD_none] <;> omega

theorem index_lt_of_get? {t : Workspace} (ht : Stage count d a r t) {id : SemanticId} {k : Semantic}
    (h : t.draft.vocabulary.get? id = some k) :
    id.index < d.vocabulary.size + a.semantics.length := by
  have hlt := (List.getElem?_eq_some_iff.mp h).1
  rwa [ht.draft.definitions, List.length_append] at hlt

theorem rooted_addFamily {t : Workspace} {operand : SymbolId} (ht : Stage count d a r t)
    (hoperand : d.Stands a operand) (root : SymbolId) :
    Rooted count { t with families := t.families ++ [(operand, root)] } where
  count := ht.rooted.count
  operands x hx := by
    rcases List.mem_append.mp hx with hx | hx
    · exact ht.rooted.operands x hx
    · rw [List.mem_singleton.mp hx]
      exact index_lt_of_mem_liveSymbols (ht.draft.mem_liveSymbols_iff.mpr hoperand)
  words := ht.rooted.words
  functions := ht.rooted.functions

theorem owned_familyAt (d : Draft) (a : Additions) (known : Option Connectives) (operand : SymbolId)
    (stem : String) (p : Part) :
    d.Owned ((a.connect known).addSymbols (familyNames stem).toList)
      ((familyAt d a known operand).symbol p) := by
  refine ⟨(a.connect known).symbols.length + p.index, p.name (familyNames stem), ?_, ?_⟩
  · rw [← Nat.add_assoc]
    rfl
  · rw [Additions.addSymbols, List.getElem?_append_right (Nat.le_add_right _ _), Nat.add_sub_cancel_left]
    cases p <;> rfl

/-- The six symbols of a family are all tried. They go ahead together, or the whole is refused. -/
theorem familyOf {operand : SymbolId} {c : Connectives} {names : FamilyNames} {f : Family} {D : Prop}
    {b : SymbolId} {R : Workspace → Prop} (hroom : d.Room a names.toList)
    (hindex : ∀ p, (f.symbol p).index = d.symbols.length + a.symbols.length + p.index)
    (hD : D → d.Unburied names.toList)
    (hrest : d.Unburied names.toList →
      Decides (Rooted count) (Stage count d (a.addSymbols names.toList) r)
        (Workspace.familyRules operand c (f.symbol .root) (f.symbol .andGroup) (f.symbol .andTail)
          (f.symbol .andOption) (f.symbol .orGroup) (f.symbol .orTail)) D b R) :
    Decides (Rooted count) (Stage count d a r) (Workspace.familyOf operand names c) D b R := by
  by_cases hfree : d.Unburied names.toList
  · have hroot : d.Room a (names.root :: _) := hroom
    have handGroup := hroot.next false
    have handTail := handGroup.next false
    have handOption := handTail.next false
    have horGroup := handOption.next false
    have horTail := horGroup.next false
    have hadded : ((((((a.addSymbol names.root false).addSymbol names.andGroup false).addSymbol
        names.andTail false).addSymbol names.andOption false).addSymbol names.orGroup false).addSymbol
          names.orTail false) = a.addSymbols names.toList := by
      simp [Additions.addSymbol, Additions.addSymbols, FamilyNames.toList]
    refine (observe_newSymbol (X := f.symbol .root) hroot.vacant (hfree _ (by simp [FamilyNames.toList]))
      (hindex .root)).granted ?_
    refine (observe_newSymbol (X := f.symbol .andGroup) handGroup.vacant
      (hfree _ (by simp [FamilyNames.toList])) ?_).granted ?_
    · simp only [hindex, Part.index, Additions.length_addSymbol, Nat.add_assoc]
    refine (observe_newSymbol (X := f.symbol .andTail) handTail.vacant
      (hfree _ (by simp [FamilyNames.toList])) ?_).granted ?_
    · simp only [hindex, Part.index, Additions.length_addSymbol, Nat.add_assoc]
    refine (observe_newSymbol (X := f.symbol .andOption) handOption.vacant
      (hfree _ (by simp [FamilyNames.toList])) ?_).granted ?_
    · simp only [hindex, Part.index, Additions.length_addSymbol, Nat.add_assoc]
    refine (observe_newSymbol (X := f.symbol .orGroup) horGroup.vacant
      (hfree _ (by simp [FamilyNames.toList])) ?_).granted ?_
    · simp only [hindex, Part.index, Additions.length_addSymbol, Nat.add_assoc]
    refine (observe_newSymbol (X := f.symbol .orTail) horTail.vacant
      (hfree _ (by simp [FamilyNames.toList])) ?_).granted ?_
    · simp only [hindex, Part.index, Additions.length_addSymbol, Nat.add_assoc]
    iterate 6 refine (Decides.ofOutcome rfl).granted ?_
    rw [hadded]
    exact hrest hfree
  · have hrefused : ¬D := fun h => hfree (hD h)
    refine Decides.weaken ?_ (fun t ht => doomed ht) (fun _ h => h)
    refine Doomed.observe_bind fun o₀ h₀ => Doomed.observe_bind fun o₁ h₁ => ?_
    refine Doomed.observe_bind fun o₂ h₂ => Doomed.observe_bind fun o₃ h₃ => ?_
    refine Doomed.observe_bind fun o₄ h₄ => Doomed.observe_bind fun o₅ h₅ => ?_
    refine Doomed.ofOutcome_bind hrefused fun id₀ hid₀ => ?_
    refine Doomed.ofOutcome_bind hrefused fun id₁ hid₁ => ?_
    refine Doomed.ofOutcome_bind hrefused fun id₂ hid₂ => ?_
    refine Doomed.ofOutcome_bind hrefused fun id₃ hid₃ => ?_
    refine Doomed.ofOutcome_bind hrefused fun id₄ hid₄ => ?_
    refine Doomed.ofOutcome_bind hrefused fun id₅ hid₅ => ?_
    refine absurd ?_ hfree
    simp only [FamilyNames.toList, unburied_cons, unburied_nil, and_true]
    exact ⟨h₀ id₀ hid₀, h₁ id₁ hid₁, h₂ id₂ hid₂, h₃ id₃ hid₃, h₄ id₄ hid₄, h₅ id₅ hid₅⟩

/-- The rules of a family are given to its symbols; only connectives that are gone can be in the way. -/
theorem familyRules {D : Prop} (f : Family) (hown : ∀ p, d.Owned a (f.symbol p))
    (hoperand : d.Stands a f.operand) (hconnectives : r.connectives = some f.connectives)
    (hsep : D → ∀ s, d.Stands a (separatorOf f.connectives s))
    (hD : (∀ s, d.Stands a (separatorOf f.connectives s)) → D) :
    Decides (Rooted count) (Stage count d a r)
      (Workspace.familyRules f.operand f.connectives (f.symbol .root) (f.symbol .andGroup)
        (f.symbol .andTail) (f.symbol .andOption) (f.symbol .orGroup) (f.symbol .orTail))
      D (f.symbol .root)
      (Stage count d a { r with families := r.families ++ [(f.operand, f.symbol .root)] }) := by
  have hfunctions := fun t (ht : Stage count d a r t) =>
    ht.rooted.functions f.connectives (by rw [ht.connectives, hconnectives])
  have hmade : ∀ p, d.Stands a (f.symbol p) := fun p => (hown p).stands
  have hnone : ∀ {p : Proposal}, p.semantic = none → d.Attachable a p := attachable_of_none
  have hsingle := fun X => Proposal.plain_unary X
  have hclosed := fun X Y i (hi : i < 2) => (Proposal.plain_binary X Y).closing hi
  refine ask_bind fun t ht => ⟨_, defer_eq (hfunctions t ht).1 rfl, ?_⟩
  have hintersect := ht.index_lt_of_get? (hfunctions t ht).1
  have hchain : ∀ {p : Proposal} {id : SemanticId}, p.semantic = some (.deferred [id]) →
      id.index < d.vocabulary.size + a.semantics.length → d.Attachable a p :=
    fun hp hid => attachable_of_some hp fun _ hmem => List.mem_singleton.mp hmem ▸ hid
  refine ask_bind fun t ht => ⟨_, defer_eq (hfunctions t ht).2 rfl, ?_⟩
  have hunion := ht.index_lt_of_get? (hfunctions t ht).2
  refine (addRule (hown .root) (hsingle _) (hnone rfl)).met hoperand ?_
  refine (addRule (hown .root) (hsingle _) (hnone rfl)).met (hmade .andGroup) ?_
  refine (addRule (hown .root) (hsingle _) (hnone rfl)).met (hmade .orGroup) ?_
  refine (addBinaryRule (hown .andGroup) ((hclosed _ _ 0 (by decide)).deferred _)
    (hchain rfl hintersect)).met ⟨hoperand, hmade .andTail⟩ ?_
  refine (addBinaryRule (hown .andTail) (hclosed _ _ 1 (by decide)) (hnone rfl)).step
    (fun h => ⟨hsep h .and, hoperand⟩) fun hand => ?_
  refine (addBinaryRule (hown .andTail) (hclosed _ _ 1 (by decide)) (hnone rfl)).met
    ⟨hand.1, hmade .andGroup⟩ ?_
  refine (addBinaryRule (hown .andTail) (hclosed _ _ 1 (by decide)) (hnone rfl)).step
    (fun h => ⟨hsep h .comma, hmade .andGroup⟩) fun hcomma => ?_
  refine (addRule (hown .andOption) (hsingle _) (hnone rfl)).met hoperand ?_
  refine (addRule (hown .andOption) (hsingle _) (hnone rfl)).met (hmade .andGroup) ?_
  refine (addBinaryRule (hown .orGroup) ((hclosed _ _ 0 (by decide)).deferred _)
    (hchain rfl hunion)).met ⟨hmade .andOption, hmade .orTail⟩ ?_
  refine (addBinaryRule (hown .orTail) (hclosed _ _ 1 (by decide)) (hnone rfl)).step
    (fun h => ⟨hsep h .or, hmade .andOption⟩) fun hor => ?_
  refine (addBinaryRule (hown .orTail) (hclosed _ _ 1 (by decide)) (hnone rfl)).met
    ⟨hor.1, hmade .orGroup⟩ ?_
  refine (addBinaryRule (hown .orTail) (hclosed _ _ 1 (by decide)) (hnone rfl)).met
    ⟨hcomma.1, hmade .orGroup⟩ ?_
  have hstands : ∀ s, d.Stands a (separatorOf f.connectives s)
    | .and => hand.1
    | .or => hor.1
    | .comma => hcomma.1
  exact (store (fun _ _ => rfl) fun t ht => rooted_addFamily ht hoperand _).granted
    (.done (hD hstands) rfl)

theorem conjunction {operand : SymbolId} {stem : String}
    (hnew : r.families.lookup operand = none)
    (howner : ∀ t, Stage count d a r t →
      ∃ s, t.draft.get? operand = some s ∧ Name.stem s.name = stem)
    (hopen : d.FamilyOpen a r.connectives stem) :
    Decides (Rooted count) (Stage count d a r) (Workspace.conjunction operand)
      (d.FamilyFits r.connectives stem) ((familyAt d a r.connectives operand).symbol .root)
      (Stage count d ((a.connect r.connectives).addSymbols (familyNames stem).toList)
        { r with
          connectives := some (connectivesAt d a r.connectives)
          families :=
            r.families ++ [(operand, (familyAt d a r.connectives operand).symbol .root)] }) := by
  have hsep := stands_separators_iff (a := a) hopen.known
    (Additions.Continued.addSymbols (a.connect r.connectives) (familyNames stem).toList).symbols
  have hown := owned_familyAt d a r.connectives operand stem
  have hindex : ∀ p, ((familyAt d a r.connectives operand).symbol p).index =
      d.symbols.length + (a.connect r.connectives).symbols.length + p.index := fun _ => rfl
  obtain ⟨f, hf⟩ : ∃ f, f = familyAt d a r.connectives operand := ⟨_, rfl⟩
  have hoperand : f.operand = operand := by rw [hf]; rfl
  have hc : connectivesAt d a r.connectives = f.connectives := by rw [hf]; rfl
  rw [← hf] at hown hindex ⊢
  rw [hc] at hsep ⊢
  rw [Workspace.conjunction_eq]
  refine Decides.get_bind fun t ht => ?_
  have hcached : t.conjunctionRoot? operand = none := by
    rw [Workspace.conjunctionRoot?, ht.families, hnew]
  simp only [hcached]
  have hstands : d.Stands a operand := by
    obtain ⟨owner, hget, -⟩ := howner t ht
    exact ht.draft.mem_liveSymbols_iff.mp (mem_liveSymbols_iff.mpr ⟨owner, hget⟩)
  refine ask_bind fun t ht => ?_
  obtain ⟨owner, hget, hstem⟩ := howner t ht
  refine ⟨owner, by simp [live, hget], ?_⟩
  rw [hstem]
  refine Decides.get_bind fun t ht => ?_
  refine (Decides.ofOutcome (checkFamilyNames_eq ht hopen)).granted ?_
  refine (connectivesOnce hopen.room.left hopen.semantics).step
    (fun h => (unburied_append.mp h.names).1) fun hconn => ?_
  rw [hc]
  refine familyOf (room_connect hopen.room) hindex (fun h => (unburied_append.mp h.names).2) fun hfree => ?_
  have hcontinued : a.symbols <+: ((a.connect r.connectives).addSymbols (familyNames stem).toList).symbols :=
    ((continued_connect a r.connectives).trans (.addSymbols ..)).symbols
  rw [← hoperand] at hstands ⊢
  exact familyRules f hown (hstands.mono hcontinued) rfl (fun h => hsep.mpr h.separators)
    fun h => ⟨unburied_append.mpr ⟨hconn, hfree⟩, hsep.mp h⟩

end Stage

end QueryGrammar
