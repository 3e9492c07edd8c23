import QueryGrammar.Proofs.Named.Rows
/-!
The rows that are left once the unused is removed: those that derivations by name use.
-/
namespace QueryGrammar.Draft

variable {d : Draft}

theorem sameNames_trimmed (d : Draft) : SameNames d d.trimmed where
  symbols X _ := d.trimmed_symbolName X
  vocabulary := d.trimmed_vocabulary
  categories := d.trimmed_entityCategoryName

theorem Consistent.hasRow_trimmed_iff (hd : d.Consistent) (hstart : d.Expands start)
    {name : String} {row : NamedRule} : d.trimmed.HasRow name row ↔
      d.HasRow.productions.Applies (d.symbolName start) name row := by
  rw [hd.applies_rows_iff hstart]
  constructor
  · rintro ⟨X, r, hr, rfl, rfl⟩
    have happlies := (mem_rules_trimmed_iff hstart).mp hr
    have hparts := (hd.rules X r happlies.expands.1).parts
    exact ⟨X, r, happlies, (d.trimmed_symbolName X).symm,
      (d.sameNames_trimmed.namedRule_eq hparts).symm⟩
  · rintro ⟨X, r, happlies, rfl, rfl⟩
    have hparts := (hd.rules X r happlies.expands.1).parts
    exact ⟨X, r, (mem_rules_trimmed_iff hstart).mpr happlies, d.trimmed_symbolName X,
      d.sameNames_trimmed.namedRule_eq hparts⟩

end QueryGrammar.Draft
