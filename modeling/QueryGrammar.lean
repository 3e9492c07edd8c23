import QueryGrammar.Files.Tree
import QueryGrammar.Main
import QueryGrammar.Proofs.Draft.Closure
import QueryGrammar.Proofs.Order.Keyed
import QueryGrammar.Proofs.Finish.Productive
import QueryGrammar.Proofs.Finish.Trim
import QueryGrammar.Proofs.Change
import QueryGrammar.Proofs.Text.Words
import QueryGrammar.Proofs.Draft.Sound
import QueryGrammar.Proofs.Workspace.Registered
import QueryGrammar.Proofs.Decimal.Shortest
import QueryGrammar.Proofs.Json.Numeral
import QueryGrammar.Proofs.Derivation.Map
import QueryGrammar.Proofs.Finish.MadeSymbols
import QueryGrammar.Proofs.Finish.Tokenize
import QueryGrammar.Proofs.Json.Compact
import QueryGrammar.Proofs.Json.Digits
import QueryGrammar.Proofs.Document.Rows
import QueryGrammar.Proofs.Finish.Edits
import QueryGrammar.Proofs.Document.Faithful
import QueryGrammar.Proofs.Document.Derivation
import QueryGrammar.Proofs.Finish.Meaning
import QueryGrammar.Proofs.Finish.Candidates
import QueryGrammar.Proofs.Document.Shape
import QueryGrammar.Proofs.Finish.WellFormed
import QueryGrammar.Proofs.Finish.Consistent
import QueryGrammar.Proofs.Finish.Used
import QueryGrammar.Proofs.Workspace.Built
import QueryGrammar.Proofs.Semantic.Cost
import QueryGrammar.Proofs.Named.Filled
import QueryGrammar.Proofs.Named.Trimmed
import QueryGrammar.Proofs.Named.Tokenized
import QueryGrammar.Proofs.Named.Edited
import QueryGrammar.Proofs.Named.Document
import QueryGrammar.Proofs.Named.Finished
import QueryGrammar.Proofs.Finish.Supplies
import QueryGrammar.Proofs.Semantic.Rounding
import QueryGrammar.Proofs.Workspace.Priced
import QueryGrammar.Proofs.Finish.Ranked
import QueryGrammar.Proofs.Finish.Stored
import QueryGrammar.Proofs.Finish.Stable
import QueryGrammar.Proofs.Finish.Cheapest
import QueryGrammar.Proofs.Workspace.Names
import QueryGrammar.Proofs.Named.Compiled
import QueryGrammar.Proofs.Conjunction.Shape
import QueryGrammar.Proofs.Conjunction.Family
import QueryGrammar.Proofs.Conjunction.Connectives
import QueryGrammar.Proofs.Conjunction.Created
import QueryGrammar.Proofs.Draft.Shaped
import QueryGrammar.Proofs.Workspace.Integrity
import QueryGrammar.Proofs.Finish.Again
import QueryGrammar.Proofs.Workspace.Again
import QueryGrammar.Proofs.Finish.Renewed
import QueryGrammar.Proofs.Finish.Restored
import QueryGrammar.Proofs.Semantic.Canonical
import QueryGrammar.Proofs.Draft.Lexical
import QueryGrammar.Proofs.Draft.Atomic
import QueryGrammar.Proofs.Json.Pretty
import QueryGrammar.Proofs.Json.Decoded
import QueryGrammar.Proofs.Json.Finite
import QueryGrammar.Proofs.Document.Returned
import QueryGrammar.Proofs.Document.Levels
import QueryGrammar.Proofs.Document.Digest
import QueryGrammar.Proofs.Finish.Refused
import QueryGrammar.Proofs.Workspace.Unpruned
import QueryGrammar.Proofs.Json.Persistent
import QueryGrammar.Proofs.Document.Readable
import QueryGrammar.Proofs.Draft.Attached
import QueryGrammar.Proofs.Workspace.Attached
import QueryGrammar.Proofs.Workspace.Arity
import QueryGrammar.Proofs.Workspace.LiveSemantics
import QueryGrammar.Proofs.Workspace.Readable
import QueryGrammar.Proofs.Workspace.Pending
import QueryGrammar.Proofs.Finish.Early
import QueryGrammar.Proofs.Workspace.Early
import QueryGrammar.Proofs.Finish.Added
import QueryGrammar.Proofs.Workspace.SingleTokens
import QueryGrammar.Proofs.Draft.Renumbered
import QueryGrammar.Proofs.Workspace.Snapshot
import QueryGrammar.Proofs.Category.Attachments
import QueryGrammar.Proofs.Finish.Idempotent
import QueryGrammar.Proofs.Finish.Shown
import QueryGrammar.Proofs.Semantic.Rendered
import QueryGrammar.Proofs.Workspace.Exclusions
import QueryGrammar.Proofs.Workspace.SplitCandidates
import QueryGrammar.Proofs.Semantic.Union
import QueryGrammar.Proofs.Semantic.Deferred
import QueryGrammar.Proofs.Semantic.Renumbered
import QueryGrammar.Proofs.Draft.Leading
import QueryGrammar.Proofs.Workspace.LexicalSequences
import QueryGrammar.Proofs.Workspace.Rendering
import QueryGrammar.Proofs.Finish.Display
import QueryGrammar.Proofs.Text.Terms
import QueryGrammar.Proofs.Text.Quoted
import QueryGrammar.Proofs.Workspace.Ambiguities
import QueryGrammar.Proofs.Finish.CandidateKey
import QueryGrammar.Proofs.Finish.Preferred
import QueryGrammar.Proofs.Workspace.Preference
