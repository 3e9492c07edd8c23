import QueryGrammar.Proofs.Workspace.Stage
/-!
Words that several modules share. They are registered on first use and may have been pruned since, so
a registration that needs one either finds its name free of anything pruned or needs the word live.
-/
namespace QueryGrammar

open Change Draft

/-- A word that is registered on first use: where it is kept and how it is put there. -/
def Registration.wordOnce (cached : Workspace → Option SymbolId)
    (store : SymbolId → Workspace → Workspace) (name : String) (accepted substituted : List String)
    (insertionCost : Option Float) : Registration SymbolId := do
  if let some id := cached (← get) then return id
  let id ← Registration.addWord name accepted substituted insertionCost
  modify (store id)
  return id

/-- The name part of a word that is yet to be registered. -/
def pending (word : Option SymbolId) (part : String) : List String :=
  if word.isSome then [] else [part]

namespace Draft

def Additions.addWords (a : Additions) (parts : List String) : Additions :=
  { a with symbols := a.symbols ++ parts.map fun part => (part, true) }

def Additions.addSymbols (a : Additions) (parts : List String) : Additions :=
  { a with symbols := a.symbols ++ parts.map fun part => (part, false) }

theorem Additions.Continued.addWords (a : Additions) (parts : List String) :
    a.Continued (a.addWords parts) := ⟨List.prefix_append _ _, List.prefix_rfl⟩

theorem Additions.Continued.addSymbols (a : Additions) (parts : List String) :
    a.Continued (a.addSymbols parts) := ⟨List.prefix_append _ _, List.prefix_rfl⟩

theorem Room.addWords {d : Draft} {a : Additions} {parts parts' : List String}
    (h : d.Room a (parts ++ parts')) : d.Room (a.addWords parts) parts' where
  isPart p hp := h.isPart p (List.mem_append_right _ hp)
  free p hp := h.free p (List.mem_append_right _ hp)
  fresh := by
    have hparts : (a.addWords parts).parts = a.parts ++ parts := by
      simp [Additions.parts, Additions.addWords, Function.comp_def]
    rw [hparts, List.append_assoc]
    exact h.fresh

theorem Room.addSymbols {d : Draft} {a : Additions} {parts parts' : List String}
    (h : d.Room a (parts ++ parts')) : d.Room (a.addSymbols parts) parts' where
  isPart p hp := h.isPart p (List.mem_append_right _ hp)
  free p hp := h.free p (List.mem_append_right _ hp)
  fresh := by
    have hparts : (a.addSymbols parts).parts = a.parts ++ parts := by
      simp [Additions.parts, Additions.addSymbols, Function.comp_def]
    rw [hparts, List.append_assoc]
    exact h.fresh

theorem Room.addSemantic {d : Draft} {a : Additions} {parts : List String} (h : d.Room a parts)
    (definition : Semantic) : d.Room (a.addSemantic definition) parts := { h with }

/-- Nothing that has been pruned is in the way of a shared word: not another symbol of its name and,
if it is registered, not the word itself. -/
structure WordFits (d : Draft) (word : Option SymbolId) (part : String) : Prop where
  name : d.Unburied (pending word part)
  live : ∀ X ∈ word, X ∈ d.liveSymbols

theorem checkFree_eq_ok_iff {d : Draft} {name : String} :
    d.checkFree name = .ok () ↔ d.find? name = none := by
  cases h : d.find? name <;> simp [checkFree, h]

theorem checkPartFree_eq_ok_iff {d : Draft} {part : String} :
    Conjunction.checkPartFree d part = .ok () ↔
      Name.isPart part = true ∧ d.find? (Name.bracketed part) = none := by
  by_cases hpart : Name.isPart part = true
  · simp [Conjunction.checkPartFree, Name.symbol_eq hpart, hpart, bind, Except.bind,
      checkFree_eq_ok_iff]
  · have hrefused : Conjunction.checkPartFree d part ≠ .ok () := by
      simp [Conjunction.checkPartFree, Name.symbol, Name.checkPart, hpart, bind, Except.bind]
    simp [hpart, hrefused]

end Draft

/-- One more word is kept, and nothing else that is shared. -/
theorem Rooted.keepWord {count : Nat} {t u : Workspace} (h : Rooted count t) {X : SymbolId}
    (hX : X.index < t.draft.symbols.length) (hdraft : u.draft = t.draft)
    (hfamilies : u.families = t.families) (hconnectives : u.connectives = t.connectives)
    (hwords : ∀ Y, some Y ∈ [u.notWord, u.who, u.that, u.possessiveSuffix] →
      Y = X ∨ some Y ∈ [t.notWord, t.who, t.that, t.possessiveSuffix]) : Rooted count u where
  count := hdraft ▸ h.count
  operands x hx := by
    rw [hdraft]
    exact h.operands x (hfamilies ▸ hx)
  words Y hY := by
    rw [hdraft]
    rcases hwords Y hY with rfl | hY
    · exact hX
    · exact h.words Y hY
  functions c hc := by
    rw [hdraft]
    exact h.functions c (hconnectives ▸ hc)

namespace Stage

variable {count : Nat} {d : Draft} {a : Additions} {r : Workspace}

theorem checkPartFree_eq {t : Workspace} {part : String} (ht : Stage count d a r t)
    (hpart : d.Vacant a part) : Conjunction.checkPartFree t.draft part = .ok () :=
  checkPartFree_eq_ok_iff.mpr ⟨hpart.isPart, ht.draft.find?_eq_none hpart⟩

theorem wordOnce {cached : Workspace → Option SymbolId} {keep : SymbolId → Workspace → Workspace}
    {part : String} {accepted substituted : List String} {cost : Option Float}
    (word : Option SymbolId)
    (hcached : ∀ t, Stage count d a r t → cached t = word)
    (hpart : word = none → d.Vacant a part) (hword : IsWord part accepted substituted cost)
    (hkeep : ∀ id ws e, keep id { ws with draft := e } = { keep id ws with draft := e })
    (hrooted : ∀ id t, id.index < t.draft.symbols.length → Rooted count t →
      Rooted count (keep id t)) :
    Decides (Rooted count) (Stage count d a r)
      (Registration.wordOnce cached keep part accepted substituted cost)
      (d.Unburied (pending word part)) (word.getD ⟨d.symbols.length + a.symbols.length⟩)
      (Stage count d (a.addWords (pending word part))
        (if word.isSome then r else keep ⟨d.symbols.length + a.symbols.length⟩ r)) := by
  unfold Registration.wordOnce
  refine Decides.get_bind fun t ht => ?_
  rw [hcached t ht]
  cases word with
  | some id =>
    have hsame : a.addWords (pending (some id) part) = a := by simp [pending, Additions.addWords]
    rw [hsame]
    exact Decides.done (by simp [pending]) rfl
  | none =>
    have hstored := store (hkeep ⟨d.symbols.length + a.symbols.length⟩)
      fun t (ht : Stage count d (a.addSymbol part true) r t) =>
        hrooted ⟨d.symbols.length + a.symbols.length⟩ t
          (by simp [ht.draft.length, Additions.addSymbol]) ht.rooted
    have hneeds : d.Unburied (pending none part) ↔ ¬ d.Buried (Name.bracketed part) := by
      simp [pending, unburied_cons]
    refine (addWord (hpart rfl) hword).step hneeds.mp fun hfree => ?_
    exact hstored.granted (.done (hneeds.mpr hfree) rfl)

/-- A word that comes next is there when it is needed; a known one may be gone. -/
theorem stands_word_iff {word : Option SymbolId} {part : String} {b : Additions}
    (hknown : ∀ X ∈ word, X.index < d.symbols.length)
    (hb : (a.addWords (pending word part)).symbols <+: b.symbols) :
    d.Stands b (word.getD ⟨d.symbols.length + a.symbols.length⟩) ↔ ∀ X ∈ word, X ∈ d.liveSymbols := by
  cases word with
  | some X =>
    have hX := hknown X rfl
    constructor
    · intro h Y hY
      obtain rfl := Option.some.inj hY
      exact h.live hX
    · exact fun h => Or.inl (h X rfl)
  | none =>
    have hlength : a.symbols.length + 1 ≤ b.symbols.length := by
      simpa [pending, Additions.addWords] using hb.length_le
    refine iff_of_true (Or.inr ?_) (by simp)
    simp only [Option.getD_none]
    omega

end Stage

end QueryGrammar
