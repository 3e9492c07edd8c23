import QueryGrammar.Compile
import QueryGrammar.Content.Speaker
/-!
Content about users and following:

    people I follow            users-followed(me)
    people I do not follow     not(users-followed(me))
    people who follow me       followers(me)
    people followed by me      users-followed(me)
-/
namespace QueryGrammar.Content

open Registration

def registerUsers : Registration Unit := do
  let users ← users
  let speaker ← firstPerson
  let forest ← me
  let follow ← call (·.addVerb (.regular "follow" "follow" "follows" "followed"))
  let followed ← semantic (.function "users-followed" 1 1)
  let followers ← semantic (.function "followers" 1 1)
  let not ← semantic { Semantic.function "not" 1 1 with forbidsMultiple := true }
  let negation ← Workspace.negation (some follow)
  let followNegated ← newSymbol ["follow-negated"]
  addBinaryRule followNegated ((Proposal.binary negation.symbol follow).closing [0])
  let usersFollowed ← defer [followed]
  addBinaryRule users.objFilter ((Proposal.binary speaker.nom follow).deferred usersFollowed)
  let notFollowed ← defer [not, followed]
  addBinaryRule users.objFilter
    ((Proposal.binary speaker.nom followNegated).deferred notFollowed)
  let followersOf ← defer [followers]
  addBinaryRule users.subjFilter ((Proposal.binary follow speaker.obj).deferred followersOf)
  let by_ ← addWord "by" ["by"] [] none
  let byMe ← call (·.newPhrase "by-1-sg" [by_, speaker.pronoun] .verbatim (some forest))
  addBinaryRule users.passive ((Proposal.binary follow byMe).deferred usersFollowed)
  addRule Draft.start (.unary users.plural)

def usersModule : ContentModule := ⟨"users", registerUsers⟩

end QueryGrammar.Content
