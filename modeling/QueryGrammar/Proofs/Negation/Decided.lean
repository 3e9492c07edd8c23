import QueryGrammar.Proofs.Workspace.SharedWords
/-!
Which negations are accepted. At a stage where its two names and, on first use, "not" look free, a
negation fails only if one of these names is that of something pruned or "not" has been pruned itself.
-/
namespace QueryGrammar

open Change Draft

theorem isWord_not : IsWord "not" ["not"] Negation.contractions none :=
  ⟨.empty, exists_of_isOk (by decide +kernel)⟩

theorem notWordOnce_eq : Workspace.notWordOnce = Registration.wordOnce (·.notWord)
    (fun id ws => { ws with notWord := some id }) "not" ["not"] Negation.contractions none := rfl

theorem Rooted.keepNotWord {count : Nat} {t : Workspace} (h : Rooted count t) {X : SymbolId}
    (hX : X.index < t.draft.symbols.length) : Rooted count { t with notWord := some X } :=
  h.keepWord hX rfl rfl rfl fun Y hY => by
    rcases List.mem_cons.mp hY with hY | hY
    · exact Or.inl (Option.some.inj hY)
    · exact Or.inr (List.mem_cons_of_mem _ hY)

theorem Rooted.keepNegation {count : Nat} {t : Workspace} (h : Rooted count t)
    (x : Option SymbolId × NegationSet) : Rooted count { t with negations := t.negations ++ [x] } where
  count := h.count
  operands := h.operands
  words := h.words
  functions := h.functions

theorem Draft.enlarges_deferStopWords (d : Draft) (a : Additions) {x : SymbolId × Option SymbolId} :
    d.Enlarges a (fun e => return ((), ← (pure
      { e with pendingStopWords := e.pendingStopWords ++ [x] } : Outcome Draft))) True () a :=
  fun _ he => ⟨trivial, rfl, he.headings, he.kept, he.definitions, he.categories⟩

namespace Stage

variable {count : Nat} {d : Draft} {a : Additions} {r : Workspace}

theorem notWord {t : Workspace} (h : Stage count d a r t) : t.notWord = r.notWord := by rw [h.rest]

theorem negations {t : Workspace} (h : Stage count d a r t) : t.negations = r.negations := by rw [h.rest]

theorem notWordOnce (hroom : d.Room a (pending r.notWord "not")) :
    Decides (Rooted count) (Stage count d a r) Workspace.notWordOnce
      (d.Unburied (pending r.notWord "not"))
      (r.notWord.getD ⟨d.symbols.length + a.symbols.length⟩)
      (Stage count d (a.addWords (pending r.notWord "not"))
        (if r.notWord.isSome then r
          else { r with notWord := some ⟨d.symbols.length + a.symbols.length⟩ })) := by
  rw [notWordOnce_eq]
  refine wordOnce r.notWord (fun t ht => ht.notWord) (fun hnone => ?_) isWord_not (fun _ _ _ => rfl)
    fun X t hX ht => ht.keepNotWord hX
  rw [hnone] at hroom
  exact hroom.vacant

theorem negation {conflicting : Option SymbolId} {part stopPart : String}
    (hnew : r.negations.lookup conflicting = none)
    (hparts : ∀ t, Stage count d a r t →
      Negation.nameParts t.draft conflicting = .ok (part, stopPart))
    (hroom : d.Room a (pending r.notWord "not" ++ [part, stopPart]))
    (hknown : ∀ X ∈ r.notWord, X.index < d.symbols.length) :
    Decides (Rooted count) (Stage count d a r) (Workspace.negation conflicting)
      (d.WordFits r.notWord "not" ∧ d.Unburied [part, stopPart])
      ⟨⟨d.symbols.length + (a.addWords (pending r.notWord "not")).symbols.length⟩,
        ⟨d.symbols.length + (a.addWords (pending r.notWord "not")).symbols.length + 1⟩, conflicting⟩
      (fun t => Rooted count t ∧ d.Enlarged
        (((a.addWords (pending r.notWord "not")).addSymbol part false).addSymbol stopPart true)
          t.draft) := by
  rw [Workspace.negation_eq]
  refine Decides.get_bind fun t ht => ?_
  rw [ht.negations, hnew]
  dsimp only
  refine ask_bind fun t ht => ⟨_, hparts t ht, ?_⟩
  refine ask_bind fun t ht => ⟨(), ?_, ?_⟩
  · refine Outcome.forM_eq_ok_iff.mpr fun p hp => ?_
    exact ht.checkPartFree_eq (hroom.vacant_of_mem (List.mem_append_right _ hp))
  refine Decides.get_bind fun t ht => ?_
  rw [ht.notWord]
  refine Decides.guarded (fun hnone => ask fun t ht => ?_) ?_
  · have hpart : "not" ∈ pending r.notWord "not" := by
      simp [pending, Option.isNone_iff_eq_none.mp hnone]
    have hvacant := hroom.vacant_of_mem (List.mem_append_left _ hpart)
    have hfree : t.draft.find? "[not]" = none := ht.draft.find?_eq_none hvacant
    simp [checkFree, hfree]
  have hsymbol := hroom.addWords
  have hstopWord := hsymbol.next false
  refine (notWordOnce hroom.left).step (fun h => h.1.name) fun hnot => ?_
  refine (newSymbol hsymbol.vacant).step (fun h => h.2 part (by simp)) fun hfree => ?_
  refine (call (enlarges_newSymbolOf hstopWord.vacant true) (.addSymbol ..)).step
    (fun h => h.2 stopPart (by simp)) fun hstop => ?_
  have hown : d.Owned (((a.addWords (pending r.notWord "not")).addSymbol part false).addSymbol stopPart true)
      ⟨d.symbols.length + (a.addWords (pending r.notWord "not")).symbols.length⟩ :=
    (owned_last d _ part).mono (Additions.Continued.addSymbol ..).symbols
  have hcontinued := (Additions.Continued.addSymbol (a.addWords (pending r.notWord "not")) part
    false).trans (.addSymbol _ stopPart true)
  have hstandsNot := stands_word_iff hknown hcontinued.symbols
  refine (addRule hown (Proposal.plain_unary _) (attachable_of_none rfl)).step
    (fun h => hstandsNot.mpr h.1.live) fun hstands => ?_
  refine (addBinaryRule hown ((Proposal.plain_binary _ _).closing (by simp))
    (attachable_of_none rfl)).met ⟨stands_last d _ stopPart true, hstands⟩ ?_
  refine (call (enlarges_deferStopWords _ _) (.refl _)).granted ?_
  refine (Decides.modify fun t ht => ⟨ht.rooted.keepNegation _, ht.draft⟩).granted (.done ?_ ?_)
  · refine ⟨⟨hnot, hstandsNot.mp hstands⟩, ?_⟩
    simpa [unburied_cons] using ⟨hfree, hstop⟩
  · rw [Additions.length_addSymbol]
    rfl

end Stage

end QueryGrammar
