/-!
Paths as they are written. Segments stand between slashes; an empty one and a dot lead nowhere,
except for a dot in front, which names the folder that the path starts from.
-/
namespace QueryGrammar.Path

def segments (path : String) : List String := path.splitOn "/"

def isRooted (path : String) : Bool := path.startsWith "/"

/-- Whether the last segment, which stands first, names anything. -/
def isPlace : List String → Bool
  | [] => false
  | ["."] => true
  | s :: _ => s != "" && s != "."

/-- The places a path leads through, innermost first, its own among them. -/
def places : List String → List (List String)
  | [] => []
  | s :: ss => if isPlace (s :: ss) then (s :: ss) :: places ss else places ss

/-- The paths of the folders around what a path names, innermost first. The folder that a path
without a slash starts from has no path of its own. -/
def enclosing (path : String) : List String :=
  match places (segments path).reverse with
  | [] => []
  | _ :: around =>
    around.map (fun place => String.intercalate "/" place.reverse) ++
      if isRooted path then ["/"] else []

end QueryGrammar.Path
