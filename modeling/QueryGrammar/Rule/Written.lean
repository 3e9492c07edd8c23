import QueryGrammar.Json.Writer
import QueryGrammar.Rule.Basic
/-!
How the parts of a rule that need no names are written: features, inflections, texts, segments
and provenance. Parts that are absent or empty are left out.
-/
namespace QueryGrammar

def PersonNumber.written : PersonNumber → String
  | oneSg => "oneSg"
  | threeSg => "threeSg"
  | pl => "pl"

def GrammaticalCase.written : GrammaticalCase → String
  | nom => "nom"
  | obj => "obj"

def Tense.written : Tense → String
  | present => "present"
  | past => "past"

def Side.written : Side → String
  | before => "before"
  | after => "after"

namespace Features

def toJson (f : Features) : Json :=
  .record
    (Json.optionalMember "personNumber" (f.personNumber.map fun x => .text x.written) ++
      Json.optionalMember "case" (f.case.map fun x => .text x.written) ++
      Json.optionalMember "tense" (f.tense.map fun x => .text x.written))

end Features

namespace Inflections

def toJson (forms : Inflections) : Json :=
  .record
    (Json.optionalMember "oneSg" (forms.oneSg.map .text) ++
      Json.optionalMember "threeSg" (forms.threeSg.map .text) ++
      Json.optionalMember "pl" (forms.pl.map .text) ++
      Json.optionalMember "past" (forms.past.map .text) ++
      Json.optionalMember "nom" (forms.nom.map .text) ++
      Json.optionalMember "obj" (forms.obj.map .text))

end Inflections

namespace DisplayText

def toJson : DisplayText → Json
  | verbatim => .text "verbatim"
  | replace text => .record [("replace", .text text)]
  | inflected forms => .record [("inflected", forms.toJson)]
  | silent => .text "silent"

end DisplayText

namespace Segment

def toJson : Segment → Json
  | literal text => .text text
  | inflected forms => forms.toJson

end Segment

namespace Provenance

mutual

def toJson : Provenance → Json
  | mk symbol text children =>
    .record
      (("symbol", .text symbol) :: Json.listMember "text" (text.map Segment.toJson) ++
        Json.listMember "children" (toJsonList children))

def toJsonList : List Provenance → List Json
  | [] => []
  | t :: ts => toJson t :: toJsonList ts

end

end Provenance

end QueryGrammar
