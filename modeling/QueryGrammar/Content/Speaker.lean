import QueryGrammar.Workspace.Category
/-!
What several content modules say in common: users as a category, and the first person.
-/
namespace QueryGrammar.Content

open Registration

def users : Registration Category :=
  Workspace.category
    { singular := "user", plural := "users", isPerson := true, entities := ["John", "Mary"] }

/-- The semantics of the speaker. -/
def me : Registration Forest := do
  let id ← semantic (.argument "me")
  ask (·.vocabulary.leaf id)

/-- The pronoun of the first person and its two cases. -/
structure FirstPerson where
  pronoun : SymbolId
  nom : SymbolId
  obj : SymbolId

/-- A symbol for the pronoun in one case. -/
def pronounIn (name : String) (pronoun : SymbolId) (forest : Forest) (case : GrammaticalCase) :
    Registration SymbolId := do
  let id ← newSymbol [name]
  addRule id { (Proposal.unary pronoun).fixed forest with features := { case := some case } }
  return id

/-- The first person, registered on first use. -/
def firstPerson : Registration FirstPerson := do
  let d := (← get).draft
  match d.find? "[1-sg]", d.find? "[nom-1-sg]", d.find? "[obj-1-sg]" with
  | some pronoun, some nom, some obj => return ⟨pronoun, nom, obj⟩
  | _, _, _ =>
    let forest ← me
    let pronoun ← call (·.addPronoun
      { name := "1-sg", nom := ["I"], obj := ["me"], insertionCost := some 0.5 })
    let nom ← pronounIn "nom-1-sg" pronoun forest .nom
    let obj ← pronounIn "obj-1-sg" pronoun forest .obj
    return ⟨pronoun, nom, obj⟩

end QueryGrammar.Content
