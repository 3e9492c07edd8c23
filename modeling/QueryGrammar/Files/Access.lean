import QueryGrammar.Error
import QueryGrammar.Files.Path
/-!
What commands ask of the files around them, and how a file is saved: whole or not at all.
-/
namespace QueryGrammar

/-- Access to files and folders by path. -/
class Files (m : Type → Type) where
  readText (path : String) : ExceptT FileFlaw m String
  writeText (path text : String) : ExceptT FileFlaw m Unit
  /-- Makes one folder in a folder that is there. -/
  makeFolder (path : String) : ExceptT FileFlaw m Unit
  isFolder (path : String) : m Bool
  /-- Moves a file, in place of the file that may be there. -/
  move (source target : String) : ExceptT FileFlaw m Unit
  /-- Removes a file if it is there. -/
  remove (path : String) : m Unit

namespace Files

variable {m : Type → Type} [Monad m] [Files m]

/-- Makes a folder unless it is there. -/
def ensureFolder (path : String) : ExceptT FileFlaw m Unit :=
  tryCatch (makeFolder path) fun flaw => do
    unless ← isFolder (m := m) path do throw flaw

/-- Makes the first of the folders. Where those around it are missing, which follow it, they are
made before. -/
def makeFolders : List String → ExceptT FileFlaw m Unit
  | [] => return
  | path :: around =>
    tryCatch (ensureFolder path) fun flaw => do
      unless flaw = .missing do throw flaw
      makeFolders around
      ensureFolder path

/-- An outcome with the place it is about. -/
def placed {α : Type} (place : String) (x : ExceptT FileFlaw m α) : ExceptT BuildError m α :=
  x.adapt (.file place)

def load (path : String) : ExceptT BuildError m String := placed path (readText path)

/-- Saves a text under a path, with the folders it needs. The text is written beside its place,
under a name that the stamp makes its own, and then moved there. -/
def save (stamp path text : String) : ExceptT BuildError m Unit := do
  let folders := Path.enclosing path
  placed (folders.headD "") (makeFolders folders)
  let scratch := path ++ ".tmp." ++ stamp
  tryCatch
    (do
      placed scratch (writeText scratch text)
      placed (scratch ++ " -> " ++ path) (move scratch path))
    fun error => do
      remove (m := m) scratch
      throw error

end Files

end QueryGrammar
