import QueryGrammar.Compile
import QueryGrammar.Content.Speaker
/-!
Content about repositories, liking and ownership:

    repos I like               repositories-liked(me)
    John's repos               repositories-created(..)
-/
namespace QueryGrammar.Content

open Registration

def registerRepositories : Registration Unit := do
  let repositories ← Workspace.category { singular := "repository", plural := "repos" }
  let users ← users
  let speaker ← firstPerson
  let like ← call (·.addVerb (.regular "like" "like" "likes" "liked"))
  let liked ← semantic (.function "repositories-liked" 1 1)
  let created ← semantic (.function "repositories-created" 1 1)
  let repositoriesLiked ← defer [liked]
  addBinaryRule repositories.objFilter
    ((Proposal.binary speaker.nom like).deferred repositoriesLiked)
  match users.possessive with
  | none => throw (.unknownSymbol "[user-possessive]")
  | some possessive =>
    let createdBy ← defer [created]
    addRule repositories.adjective ((Proposal.unary possessive).deferred createdBy)
    addRule Draft.start (.unary repositories.plural)

def repositoriesModule : ContentModule := ⟨"repositories", registerRepositories⟩

end QueryGrammar.Content
