import QueryGrammar.Files.Access
/-!
Files and folders held as a value. Places are given by the names that lead to them from the working
folder; those above it start with two dots.
-/
namespace QueryGrammar

/-- What stands at a place. -/
inductive FileEntry where
  | folder
  | file (text : String)
  deriving DecidableEq

abbrev Place := List String

structure FileTree where
  entries : List (Place × FileEntry) := []

namespace FileTree

/-- The working folder, those above it and the root are always there. -/
def find? (t : FileTree) (place : Place) : Option FileEntry :=
  if place.all (· == "..") || place == ["/"] then some .folder else t.entries.lookup place

def erase (t : FileTree) (place : Place) : FileTree :=
  { t with entries := t.entries.filter (·.1 != place) }

def put (t : FileTree) (place : Place) (entry : FileEntry) : FileTree :=
  { t with entries := (place, entry) :: (t.erase place).entries }

/-- The place around a place; the root is its own. -/
def above (place : Place) : Place :=
  if place.all (· == "..") then place ++ [".."]
  else if place == ["/"] then place
  else place.dropLast

/-- The place that a segment leads to from a folder. -/
def step (t : FileTree) (place : Place) (segment : String) : Except FileFlaw Place :=
  match t.find? place with
  | none => .error .missing
  | some (.file _) => .error .notDirectory
  | some .folder =>
    if segment == "" || segment == "." then .ok place
    else if segment == ".." then .ok (above place)
    else if 255 < segment.utf8ByteSize then .error .nameTooLong
    else .ok (place ++ [segment])

/-- The place that a path leads to, whether or not something stands there. -/
def locate (t : FileTree) (path : String) : Except FileFlaw Place :=
  if path.isEmpty then .error .missing
  else if 4095 < path.utf8ByteSize then .error .nameTooLong
  else (Path.segments path).foldlM t.step (if Path.isRooted path then ["/"] else [])

def readText (t : FileTree) (path : String) : Except FileFlaw String := do
  match t.find? (← t.locate path) with
  | some (.file text) => return text
  | some .folder => throw .isDirectory
  | none => throw .missing

def writeText (t : FileTree) (path text : String) : Except FileFlaw FileTree := do
  let place ← t.locate path
  if t.find? place = some .folder then throw .isDirectory
  return t.put place (.file text)

def makeFolder (t : FileTree) (path : String) : Except FileFlaw FileTree := do
  let place ← t.locate path
  if (t.find? place).isSome then throw .alreadyThere
  return t.put place .folder

def isFolder (t : FileTree) (path : String) : Bool :=
  match t.locate path with
  | .ok place => t.find? place = some .folder
  | .error _ => false

def move (t : FileTree) (source target : String) : Except FileFlaw FileTree := do
  let text ← t.readText source
  return (← t.writeText target text).erase (← t.locate source)

def remove (t : FileTree) (path : String) : FileTree :=
  match t.locate path with
  | .ok place => if t.find? place = some .folder then t else t.erase place
  | .error _ => t

/-- A change that may be refused, and then leaves the tree as it is. -/
def change (f : FileTree → Except FileFlaw FileTree) : ExceptT FileFlaw (StateM FileTree) Unit := do
  set (← liftExcept (f (← get)))

instance : Files (StateM FileTree) where
  readText path := do liftExcept ((← get).readText path)
  writeText path text := change (·.writeText path text)
  makeFolder path := change (·.makeFolder path)
  isFolder path := return (← get).isFolder path
  move source target := change (·.move source target)
  remove path := modify (·.remove path)

end FileTree

end QueryGrammar
