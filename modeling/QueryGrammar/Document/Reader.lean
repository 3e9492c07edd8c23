import QueryGrammar.Document.Written
import QueryGrammar.Json.Decoder
import QueryGrammar.Json.Reader
/-!
Reading a document. Fields that are not known are passed over; those that are written only when
present or not empty may be missing.
-/
namespace QueryGrammar

open Decoder

def PersonNumber.ofName? : String → Option PersonNumber
  | "oneSg" => some .oneSg
  | "threeSg" => some .threeSg
  | "pl" => some .pl
  | _ => none

def GrammaticalCase.ofName? : String → Option GrammaticalCase
  | "nom" => some .nom
  | "obj" => some .obj
  | _ => none

def Tense.ofName? : String → Option Tense
  | "present" => some .present
  | "past" => some .past
  | _ => none

def Side.ofName? : String → Option Side
  | "before" => some .before
  | "after" => some .after
  | _ => none

namespace Features

def decode : Decoder Features :=
  record ["personNumber", "case", "tense"] fun levels fields =>
    match fields with
    | [personNumber, case, tense] => do
      return {
        personNumber := ← absent (tag PersonNumber.ofName?) levels personNumber
        case := ← absent (tag GrammaticalCase.ofName?) levels case
        tense := ← absent (tag Tense.ofName?) levels tense }
    | _ => none

end Features

namespace Inflections

def decode : Decoder Inflections :=
  record ["oneSg", "threeSg", "pl", "past", "nom", "obj"] fun levels fields =>
    match fields with
    | [oneSg, threeSg, pl, past, nom, obj] => do
      return {
        oneSg := ← absent text levels oneSg
        threeSg := ← absent text levels threeSg
        pl := ← absent text levels pl
        past := ← absent text levels past
        nom := ← absent text levels nom
        obj := ← absent text levels obj }
    | _ => none

end Inflections

namespace DisplayText

def decode : Decoder DisplayText :=
  tagged
    (fun name =>
      match name with
      | "verbatim" => some .verbatim
      | "silent" => some .silent
      | _ => none)
    fun levels name j =>
      match name, j with
      | "verbatim", .null => some .verbatim
      | "silent", .null => some .silent
      | "replace", j => (text levels j).map .replace
      | "inflected", j => (Inflections.decode levels j).map .inflected
      | _, _ => none

end DisplayText

namespace Segment

/-- A text is a literal, anything else a table of forms. Since the form decides, the whole value is
taken in before either is tried. -/
def decode : Decoder Segment := fun levels j =>
  if isWhole levels j then
    match j with
    | .string s => s.map .literal
    | j => (Inflections.decode levels j).map .inflected
  else none

end Segment

namespace Provenance

mutual

def decode : Nat → Json → Option Provenance
  | 0, _ => none
  | levels + 1, j => do
    match ← fields ["symbol", "text", "children"] j with
    | [symbol, segments, children] =>
      let symbol ← present Decoder.text levels symbol
      let segments ← orElse [] (list Segment.decode) levels segments
      match children with
      | some children => return .mk symbol segments (← decodeList levels children)
      | none => return .mk symbol segments []
    | _ => none

def decodeList : Nat → Json → Option (List Provenance)
  | levels + 1, .array items => items.mapM (decode levels)
  | _, _ => none

end

end Provenance

namespace NamedNode

mutual

def decode : Nat → Json → Option NamedNode
  | 0, _ => none
  | levels + 1, j => do
    match ← fields ["semantic", "children"] j with
    | [semantic, children] =>
      let semantic ← present Decoder.text levels semantic
      match children with
      | some children => return .mk semantic (← decodeList levels children)
      | none => return .mk semantic []
    | _ => none

def decodeList : Nat → Json → Option (List NamedNode)
  | levels + 1, .array items => items.mapM (decode levels)
  | _, _ => none

end

end NamedNode

namespace SemanticTraits

def decode : Decoder SemanticTraits :=
  record ["minParams", "maxParams", "cost", "isArg", "forbidsMultiple"] fun levels fields =>
    match fields with
    | [minParams, maxParams, cost, isArg, forbidsMultiple] => do
      return {
        minParams := ← present word64 levels minParams
        maxParams := ← present word64 levels maxParams
        cost := ← present float levels cost
        isArg := ← present flag levels isArg
        forbidsMultiple := ← present flag levels forbidsMultiple }
    | _ => none

end SemanticTraits

namespace NamedRhs

def decode : Decoder NamedRhs :=
  tagged (fun _ => none) fun levels name j =>
    match name with
    | "symbols" => (list text levels j).map .symbols
    | "terminal" => (text levels j).map .terminal
    | "termSequence" => (list text levels j).map .termSequence
    | "placeholder" => (text levels j).map .placeholder
    | _ => none

end NamedRhs

namespace NamedAttachment

def decode : Decoder NamedAttachment :=
  tagged (fun _ => none) fun levels name j =>
    match name with
    | "fixed" => (NamedNode.decodeList levels j).map .fixed
    | "deferred" => (list text levels j).map .deferred
    | _ => none

end NamedAttachment

namespace NamedInsertion

def decode : Decoder NamedInsertion :=
  record ["cost", "position", "text", "semantic", "tree"] fun levels fields =>
    match fields with
    | [cost, position, segments, semantic, tree] => do
      return {
        cost := ← present float levels cost
        position := ← present (tag Side.ofName?) levels position
        text := ← orElse [] (list Segment.decode) levels segments
        semantic := ← absent NamedNode.decodeList levels semantic
        tree := ← absent Provenance.decode levels tree }
    | _ => none

end NamedInsertion

namespace NamedEdit

def decode : Decoder NamedEdit :=
  tagged (fun _ => none) fun levels name j =>
    match name with
    | "insertion" => (NamedInsertion.decode levels j).map .insertion
    | "transposition" =>
      record ["cost"] (fun levels fields =>
        match fields with
        | [cost] => (present float levels cost).map .transposition
        | _ => none) levels j
    | _ => none

end NamedEdit

namespace NamedRule

def fieldNames : List String :=
  ["rhs", "text", "semantic", "features", "insertionCost", "transpositionCost",
    "noInsertionIndexes", "edit"]

def decode : Decoder NamedRule :=
  record fieldNames fun levels fields =>
    match fields with
    | [rhs, text, semantic, features, insertionCost, transpositionCost, noInsertion, edit] => do
      return {
        rhs := ← present NamedRhs.decode levels rhs
        text := ← absent DisplayText.decode levels text
        semantic := ← absent NamedAttachment.decode levels semantic
        features := ← orElse {} Features.decode levels features
        insertionCost := ← absent float levels insertionCost
        transpositionCost := ← absent float levels transpositionCost
        noInsertionIndexes := ← orElse [] (list word64) levels noInsertion
        edit := ← absent NamedEdit.decode levels edit }
    | _ => none

end NamedRule

namespace Document

/-- How deep arrays and objects may nest. -/
def maxLevels : Nat := 127

def fieldNames : List String :=
  ["schema", "grammarKind", "startSymbol", "digest", "ruleSets", "semantics",
    "entityCategories"]

def decode : Decoder Document :=
  record fieldNames fun levels fields =>
    match fields with
    | [schema, kind, startSymbol, digest, ruleSets, semantics, entityCategories] => do
      return {
        schema := ← present word32 levels schema
        grammarKind := ← present text levels kind
        startSymbol := ← present text levels startSymbol
        digest := ← present text levels digest
        ruleSets := ← present (map (list NamedRule.decode)) levels ruleSets
        semantics := ← present (map SemanticTraits.decode) levels semantics
        entityCategories := ← present (map (list text)) levels entityCategories }
    | _ => none

/-- The document that a text holds. -/
def ofText? (text : String) : Option Document := do
  decode maxLevels (← Json.ofText? text)

end Document

end QueryGrammar
