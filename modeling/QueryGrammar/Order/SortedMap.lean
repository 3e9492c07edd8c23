import QueryGrammar.Order.Keyed
/-!
Finite maps from names, listed in ascending order of the names. Two maps with the same pairs are
equal, whatever order the pairs were inserted in.
-/
namespace QueryGrammar

structure SortedMap (α : Type) where
  entries : List (String × α)
  ascending : Keyed.Ascending entries

namespace SortedMap

variable {α β : Type}

instance : Inhabited (SortedMap α) := ⟨⟨[], List.Pairwise.nil⟩⟩

/-- The pairs with later ones replacing earlier ones of the same name. -/
def ofList (pairs : List (String × α)) : SortedMap α :=
  ⟨Keyed.ofList (fun _ last => last) pairs, Keyed.ascending_ofList _ pairs⟩

def find? (m : SortedMap α) (key : String) : Option α :=
  Keyed.find? key m.entries

def keys (m : SortedMap α) : List String := m.entries.map Prod.fst

def values (m : SortedMap α) : List α := m.entries.map Prod.snd

def size (m : SortedMap α) : Nat := m.entries.length

instance [BEq α] : BEq (SortedMap α) := ⟨fun a b => a.entries == b.entries⟩

theorem ext_entries {a b : SortedMap α} (h : a.entries = b.entries) : a = b := by
  cases a
  cases b
  cases h
  rfl

end SortedMap

end QueryGrammar
