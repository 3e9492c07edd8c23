import Mathlib.Logic.Relation
import QueryGrammar.Proofs.Draft.StopWords
import QueryGrammar.Proofs.Finish.Trimmed
import QueryGrammar.Proofs.Named.Rows
/-!
The rows of a draft once its stop words are filled. Which words a symbol is given depends on the
tokens of the symbol it avoids, and these can be told from the rows.
-/
namespace QueryGrammar

namespace Rows

variable (R : Rows)

/-- A row of the one symbol mentions the other. -/
def Mentions (name part : String) : Prop := ∃ row, R name row ∧ part ∈ row.rhs.parts

/-- Some symbol that the rows lead to from the first one has a terminal with the token. -/
def Produces (name token : String) : Prop :=
  ∃ other row term, Relation.ReflTransGen R.Mentions name other ∧ R other row ∧
    row.rhs = .terminal term ∧ token ∈ Text.wordsOf term

/-- The stop words for a symbol that is to avoid the given one. -/
def StopWord (conflicting : Option String) (word : String) : Prop :=
  word ∈ StopWords.defaults ∧ ∀ name, conflicting = some name → ¬ R.Produces name word

end Rows

namespace Draft

variable {d : Draft}

/-- Symbols that are waiting for stop words, with those that they are to avoid. -/
def Awaits (d : Draft) (name : String) (conflicting : Option String) : Prop :=
  ∃ p ∈ d.pendingStopWords, d.symbolName p.1 = name ∧ p.2.map d.symbolName = conflicting

section Conflicts

variable (hd : d.Sound)
include hd

theorem Sound.symbolName_of_not_live {X : SymbolId} (hX : X ∉ d.liveSymbols) :
    d.symbolName X = "<unknown>" := by
  cases hs : d.symbols[X.index]? with
  | none => simp [symbolName, hs]
  | some s =>
    refine absurd (mem_liveSymbols_iff.mpr ⟨s, get?_eq_some_iff.mpr ⟨hs, ?_⟩⟩) hX
    exact hd.unpruned s (List.mem_of_getElem? hs)

theorem Sound.head_symbolName {X : SymbolId} (hX : X ∈ d.liveSymbols) :
    (d.symbolName X).toList.head? = some '[' := by
  obtain ⟨s, hs⟩ := mem_liveSymbols_iff.mp hX
  rw [symbolName_of_get? hs]
  exact hd.bracketed s (List.mem_of_getElem? (get?_eq_some_iff.mp hs).1)

/-- Nothing is pruned, so a name is that of one symbol at most, or of none that has rows. -/
theorem Sound.exists_of_hasRow {X : SymbolId} {row : NamedRule}
    (h : d.HasRow (d.symbolName X) row) : ∃ r ∈ d.rules X, d.namedRule r = row := by
  obtain ⟨Y, r, hr, hname, rfl⟩ := h
  have hY := live_of_mem_rules hr
  by_cases hX : X ∈ d.liveSymbols
  · obtain rfl := symbolName_inj hd.names hY hX hname
    exact ⟨r, hr, rfl⟩
  · have hhead := hd.head_symbolName hY
    rw [hname, hd.symbolName_of_not_live hX] at hhead
    exact absurd hhead (by decide)

theorem mem_tokensOf_iff {X : SymbolId} {token : String} : token ∈ StopWords.tokensOf d X ↔
    ∃ row term, d.HasRow (d.symbolName X) row ∧ row.rhs = .terminal term ∧
      token ∈ Text.wordsOf term := by
  unfold StopWords.tokensOf
  rw [List.mem_flatMap]
  constructor
  · rintro ⟨r, hr, htoken⟩
    split at htoken
    next term text hx =>
      exact ⟨d.namedRule r, term, ⟨X, r, hr, rfl, rfl⟩, by simp [namedRule, namedExpansion, hx],
        htoken⟩
    next => simp at htoken
  · rintro ⟨row, term, hrow, hrhs, htoken⟩
    obtain ⟨r, hr, rfl⟩ := hd.exists_of_hasRow hrow
    refine ⟨r, hr, ?_⟩
    cases hx : r.expansion <;> simp [namedRule, namedExpansion, hx] at hrhs
    exact hrhs ▸ htoken

theorem mem_conflictingTokens_iff {X : SymbolId} {token : String} :
    token ∈ StopWords.conflictingTokens d X ↔ d.HasRow.Produces (d.symbolName X) token := by
  unfold StopWords.conflictingTokens
  simp only [List.mem_flatMap, mem_reachedFrom_iff, mem_tokensOf_iff hd]
  constructor
  · rintro ⟨Y, hY, row, term, hrow, hrhs, htoken⟩
    refine ⟨d.symbolName Y, row, term, ?_, hrow, hrhs, htoken⟩
    clear hrow
    induction hY with
    | root hmem => rw [List.mem_singleton.mp hmem]
    | step _ hr _ hp ih =>
      exact ih.tail ⟨_, ⟨_, _, hr, rfl, rfl⟩, mem_parts_namedRule.mpr ⟨_, hp, rfl⟩⟩
  · rintro ⟨name, row, term, hpath, hrow, hrhs, htoken⟩
    suffices ∃ Y, d.symbolName Y = name ∧ d.Reaches (fun _ => true) [X] Y by
      obtain ⟨Y, rfl, hY⟩ := this
      exact ⟨Y, hY, row, term, hrow, hrhs, htoken⟩
    clear hrow
    induction hpath with
    | refl => exact ⟨X, rfl, .root (by simp)⟩
    | tail _ hmentions ih =>
      obtain ⟨Y, rfl, hY⟩ := ih
      obtain ⟨row, hrow, hpart⟩ := hmentions
      obtain ⟨r, hr, rfl⟩ := hd.exists_of_hasRow hrow
      obtain ⟨Z, hZ, rfl⟩ := mem_parts_namedRule.mp hpart
      exact ⟨Z, rfl, .step hY hr rfl hZ⟩

theorem mem_allowed_iff {conflicting : Option SymbolId} {word : String} :
    word ∈ StopWords.allowed d conflicting ↔
      d.HasRow.StopWord (conflicting.map d.symbolName) word := by
  cases conflicting with
  | none => simp [StopWords.allowed, Rows.StopWord]
  | some X =>
    have htokens : word ∈ StopWords.conflictingTokens d X ↔
        d.HasRow.Produces (d.symbolName X) word := mem_conflictingTokens_iff hd
    simp [StopWords.allowed, Rows.StopWord, htokens]

end Conflicts

/-- The row that reads a stop word. -/
def stopRow (word : String) : NamedRule := { rhs := .terminal word, text := some .silent }

/-- The rows of a filled draft are those it had and the stop words of the symbols that wait. -/
theorem Sound.hasRow_filled_iff (hd : d.Sound) {count : Nat} {e : Draft}
    (h : StopWords.fill.perform d = (.ok count, e)) {name : String} {row : NamedRule} :
    e.HasRow name row ↔ d.HasRow name row ∨ ∃ conflicting word, d.Awaits name conflicting ∧
      d.HasRow.StopWord conflicting word ∧ row = stopRow word := by
  have hgains := StopWords.gains_fill h
  have hsame := hgains.sameNames
  have hparts : ∀ X, ∀ r ∈ d.rules X, ∀ Y ∈ r.expansion.parts, Y ∈ d.liveSymbols :=
    fun X r hr Y hY => mem_liveSymbols_iff.mpr ((hd.rule hr).expansion.parts Y hY)
  constructor
  · rintro ⟨X, r, hr, rfl, rfl⟩
    rw [hgains.names]
    rcases (hgains.rules X r).mp hr with hr | ⟨conflicting, hmem, word, hword, rfl⟩
    · exact Or.inl ⟨X, r, hr, rfl, (hsame.namedRule_eq (hparts X r hr)).symm⟩
    · refine Or.inr ⟨conflicting.map d.symbolName, word, ⟨_, hmem, rfl, rfl⟩, ?_, rfl⟩
      exact (mem_allowed_iff hd).mp hword
  · rintro (⟨X, r, hr, rfl, rfl⟩ | ⟨_, word, ⟨⟨X, conflicting⟩, hmem, rfl, rfl⟩, hword, rfl⟩)
    · exact ⟨X, r, (hgains.rules X r).mpr (Or.inl hr), hgains.names X,
        hsame.namedRule_eq (hparts X r hr)⟩
    · have hallowed := (mem_allowed_iff hd).mpr hword
      exact ⟨X, StopWords.stopRule word,
        (hgains.rules X _).mpr (Or.inr ⟨conflicting, hmem, word, hallowed, rfl⟩),
        hgains.names X, rfl⟩

end Draft

end QueryGrammar
