import QueryGrammar.Proofs.Draft.Sound
import QueryGrammar.Proofs.Finish.Tokenize
import QueryGrammar.Proofs.Finish.Trim
/-!
A registered draft once the unused is removed: no rule is an edit, and what rules refer to is live.
-/
namespace QueryGrammar.Draft

variable {d : Draft}

theorem Sound.rule (hd : d.Sound) {id : SymbolId} {r : Rule} (h : r ∈ d.rules id) :
    d.SoundRule r := by
  obtain ⟨s, hs⟩ := mem_liveSymbols_iff.mp (live_of_mem_rules h)
  rw [rules_of_get? hs] at h
  exact hd.rules s (List.mem_of_getElem? (get?_eq_some_iff.mp hs).1) r h

structure Trimmed (d : Draft) : Prop where
  names : (d.symbols.map (·.name)).Nodup
  bracketed : ∀ s ∈ d.symbols, s.name.toList.head? = some '['
  wellFormed : d.WellFormed
  unedited : ∀ X, ∀ r ∈ d.rules X, r.edit = none
  startLive : start ∈ d.liveSymbols

theorem Sound.trimmed (hd : d.Sound) (hstart : d.Expands start) : d.trimmed.Trimmed where
  names := d.trimmed_names ▸ hd.names
  bracketed s hs := by
    have hname : s.name ∈ d.trimmed.symbols.map (·.name) := List.mem_map_of_mem hs
    rw [trimmed_names] at hname
    obtain ⟨t, ht, heq⟩ := List.mem_map.mp hname
    exact heq ▸ hd.bracketed t ht
  wellFormed := by
    constructor
    · intro X r hr Y hY
      have happlies := (mem_rules_trimmed_iff hstart).mp hr
      exact (mem_liveSymbols_trimmed_iff hstart).mpr (happlies.occurs_part hY)
    · intro X r hr
      exact (hd.rule ((mem_rules_trimmed_iff hstart).mp hr).expands.1).expansion.term
  unedited X r hr := (hd.rule ((mem_rules_trimmed_iff hstart).mp hr).expands.1).unedited
  startLive := (mem_liveSymbols_trimmed_iff hstart).mpr (Productions.occurs_root hstart)

end QueryGrammar.Draft
