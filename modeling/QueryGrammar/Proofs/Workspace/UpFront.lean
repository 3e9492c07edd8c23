import QueryGrammar.Proofs.Negation.Decided
import QueryGrammar.Proofs.Conjunction.Decided
import QueryGrammar.Proofs.Text.Templates
import QueryGrammar.Workspace.Category
/-!
What the registrations of several symbols check first. Each name is checked alone, but the names that
one registration takes differ from each other whatever they are made from. So the checks say that there
is room for all of them one after the other, as far as anything live is concerned.
-/
namespace QueryGrammar

open Change Draft Name.Template

namespace Draft

theorem room_of_free {d : Draft} {parts : List String}
    (hfree : ∀ p ∈ parts, Name.isPart p = true ∧ d.find? (Name.bracketed p) = none)
    (hnodup : parts.Nodup) : d.Room {} parts where
  isPart p hp := (hfree p hp).1
  free p hp := (hfree p hp).2
  fresh := by simpa [Additions.parts] using hnodup

end Draft

theorem pending_sublist (word : Option SymbolId) (part : String) :
    (pending word part).Sublist [part] := by
  cases word with
  | none => exact .refl _
  | some id => exact List.nil_sublist _

theorem free_of_pending {d : Draft} {word : Option SymbolId} (part : String)
    (hpart : Name.isPart part = true)
    (hfree : word = none → d.find? (Name.bracketed part) = none) :
    ∀ p ∈ pending word part, Name.isPart p = true ∧ d.find? (Name.bracketed p) = none := by
  cases word with
  | some id => simp [pending]
  | none => simpa [pending] using ⟨hpart, hfree rfl⟩

namespace Conjunction

variable {ws : Workspace} {stem : String}

theorem connectiveParts_sublist (known : Option Connectives) :
    (connectiveParts known).Sublist ["and", "or", "comma"] := by
  cases known with
  | none => exact .refl _
  | some c => exact List.nil_sublist _

/-- How the names of a family are made. -/
def familyTemplates : List Name.Template :=
  [around "" "+", around "" "-and", around "and+" "", around "" "-and?", around "" "-or",
    around "or+" ""]

theorem nodup_familyNames (known : Option Connectives) (stem : String) :
    (connectiveParts known ++ (familyNames stem).toList).Nodup := by
  have hapart : ([fixed "and", fixed "or", fixed "comma"] ++ familyTemplates).Pairwise Apart := by
    decide +kernel
  have hnames : ([fixed "and", fixed "or", fixed "comma"] ++ familyTemplates).map (fill stem) =
      ["and", "or", "comma"] ++ (familyNames stem).toList := by
    simp [familyTemplates, familyNames, FamilyNames.toList, fill]
  have hall := nodup_fill stem hapart
  rw [hnames] at hall
  exact hall.sublist ((connectiveParts_sublist known).append_right _)

theorem checkSemanticFree_eq_ok_iff {d : Draft} {name : String} :
    checkSemanticFree d name = .ok () ↔ ∀ k ∈ d.vocabulary.definitions, k.name ≠ name := by
  have hfind : d.vocabulary.find? name = none ↔ ∀ k ∈ d.vocabulary.definitions, k.name ≠ name := by
    simp [Vocabulary.find?, List.findIdx?_eq_none_iff]
  rw [← hfind]
  cases h : d.vocabulary.find? name <;> simp [checkSemanticFree, h]

theorem free_of_checkConnectiveNames (h : checkConnectiveNames ws = .ok ()) :
    (∀ p ∈ connectiveParts ws.connectives,
      Name.isPart p = true ∧ ws.draft.find? (Name.bracketed p) = none) ∧
    (ws.connectives = none → ∀ k ∈ ws.draft.vocabulary.definitions,
      k.name ≠ intersectName ∧ k.name ≠ unionName) := by
  unfold checkConnectiveNames at h
  cases hknown : ws.connectives with
  | some c => simp [connectiveParts]
  | none =>
    simp only [hknown, Option.isSome_none, Bool.false_eq_true, if_false] at h
    obtain ⟨⟨⟩, hwords, hsemantics⟩ := Outcome.ok_of_bind h
    simp only [Outcome.forM_eq_ok_iff, checkFree_eq_ok_iff, checkSemanticFree_eq_ok_iff] at hwords hsemantics
    refine ⟨fun p hp => ⟨?_, ?_⟩, fun _ k hk => ⟨?_, ?_⟩⟩
    · have hparts : ∀ q ∈ connectiveParts none, Name.isPart q = true := by decide
      exact hparts p hp
    · exact hwords (Name.bracketed p) (List.mem_map_of_mem (f := Name.bracketed) hp)
    · exact hsemantics intersectName (by simp) k hk
    · exact hsemantics unionName (by simp) k hk

theorem free_of_checkFamilyNames (h : checkFamilyNames ws stem = .ok ()) :
    (∀ p ∈ connectiveParts ws.connectives ++ (familyNames stem).toList,
      Name.isPart p = true ∧ ws.draft.find? (Name.bracketed p) = none) ∧
    (ws.connectives = none → ∀ k ∈ ws.draft.vocabulary.definitions,
      k.name ≠ intersectName ∧ k.name ≠ unionName) := by
  obtain ⟨⟨⟩, hfamily, hconnectives⟩ := Outcome.ok_of_bind h
  simp only [Outcome.forM_eq_ok_iff, checkPartFree_eq_ok_iff] at hfamily
  obtain ⟨hwords, hsemantics⟩ := free_of_checkConnectiveNames hconnectives
  exact ⟨List.forall_mem_append.mpr ⟨hwords, hfamily⟩, hsemantics⟩

theorem room_of_checkFamilyNames (h : checkFamilyNames ws stem = .ok ()) :
    ws.draft.Room {} (connectiveParts ws.connectives ++ (familyNames stem).toList) :=
  room_of_free (free_of_checkFamilyNames h).1 (nodup_familyNames _ stem)

end Conjunction

namespace Negation

variable {d : Draft} {conflicting : Option SymbolId} {part stopPart : String}

theorem nodup_nameParts (word : Option SymbolId)
    (h : nameParts d conflicting = .ok (part, stopPart)) :
    (pending word "not" ++ [part, stopPart]).Nodup := by
  have hall : ["not", part, stopPart].Nodup := by
    cases conflicting with
    | none =>
      obtain ⟨rfl, rfl⟩ := Prod.mk.inj (Except.ok.inj h)
      decide
    | some id =>
      obtain ⟨s, -, heq⟩ := Outcome.ok_of_bind h
      obtain ⟨rfl, rfl⟩ := Prod.mk.inj (Except.ok.inj heq)
      have hapart : [fixed "not", around "negation-for-" "", around "negation-stop-word-for-" ""].Pairwise
        Apart := by decide +kernel
      simpa [fill] using nodup_fill (Name.stem s.name) hapart
  exact hall.sublist ((pending_sublist word "not").append_right _)

end Negation

/-- The relative pronoun for persons or for things, once it is registered. -/
def Workspace.relative (ws : Workspace) (isPerson : Bool) : Option SymbolId :=
  if isPerson then ws.who else ws.that

namespace Category

def relativePart (isPerson : Bool) : String := if isPerson then "who" else "that"

/-- The roles that every category has. -/
def ownRoles : List String :=
  ["term", "adjective", "head", "subj-filter", "obj-filter", "passive", "rhs", "plural"]

def part (singular role : String) : String := singular ++ "-" ++ role

theorem part_eq (singular role : String) : part singular role = singular ++ ("-" ++ role) :=
  String.append_assoc

/-- The name parts that a category takes, in the order of registration. -/
def parts (ws : Workspace) (singular : String) (isPerson : Bool) : List String :=
  ownRoles.map (part singular) ++ pending (ws.relative isPerson) (relativePart isPerson) ++
    (connectiveParts ws.connectives ++ (Conjunction.familyNames (part singular "rhs")).toList)

/-- The name parts that it takes besides for named instances. -/
def entityParts (suffix : Option SymbolId) (singular : String) : List String :=
  part singular "entity" :: (pending suffix "possessive-suffix" ++ [part singular "possessive"])

/-- How the names are made from a singular. -/
def templates : List Name.Template :=
  ownRoles.map (fun role => around "" ("-" ++ role)) ++
    [fixed "who", fixed "that", fixed "and", fixed "or", fixed "comma", around "" "-rhs+",
      around "" "-rhs-and", around "and+" "-rhs", around "" "-rhs-and?", around "" "-rhs-or",
      around "or+" "-rhs", around "" "-entity", fixed "possessive-suffix", around "" "-possessive"]

theorem templates_apart : templates.Pairwise Apart := by decide +kernel

theorem map_fill_templates (singular : String) : templates.map (fill singular) =
    ownRoles.map (part singular) ++ ["who", "that"] ++ (["and", "or", "comma"] ++
      (Conjunction.familyNames (part singular "rhs")).toList) ++
      [part singular "entity", "possessive-suffix", part singular "possessive"] := by
  simp [templates, ownRoles, part, Conjunction.familyNames, Conjunction.FamilyNames.toList, fill,
    String.append_assoc]

theorem nodup_parts (ws : Workspace) (singular : String) (isPerson : Bool) :
    (parts ws singular isPerson ++ entityParts ws.possessiveSuffix singular).Nodup := by
  have hall := nodup_fill singular templates_apart
  rw [map_fill_templates] at hall
  have hrelative : (pending (ws.relative isPerson) (relativePart isPerson)).Sublist
      ["who", "that"] := by
    refine (pending_sublist _ _).trans ?_
    cases isPerson <;> decide
  have hfamily := (Conjunction.connectiveParts_sublist ws.connectives).append_right
    (Conjunction.familyNames (part singular "rhs")).toList
  have hentity : (entityParts ws.possessiveSuffix singular).Sublist
      [part singular "entity", "possessive-suffix", part singular "possessive"] :=
    ((pending_sublist _ _).append_right _).cons_cons _
  exact hall.sublist ((((List.Sublist.refl _).append hrelative).append hfamily).append hentity)

/-- What is checked before anything of a category is registered. -/
structure Cleared (ws : Workspace) (singular plural : String) (isPerson hasEntities : Bool) :
    Prop where
  roles : ∀ role ∈ roles, Name.isPart (part singular role) = true ∧
    ws.draft.find? (Name.bracketed (part singular role)) = none
  all : Name.isPart ("all-" ++ plural) = true
  allFree : ∀ k ∈ ws.draft.vocabulary.definitions, k.name ≠ "all-" ++ plural
  categories : hasEntities = true →
    ∀ c ∈ ws.draft.entityCategories, c.name = singular → c.pruned = true
  relative : ws.relative isPerson = none →
    ws.draft.find? (Name.bracketed (relativePart isPerson)) = none
  suffix : hasEntities = true → ws.possessiveSuffix = none →
    ws.draft.find? (Name.bracketed "possessive-suffix") = none
  family : Conjunction.checkFamilyNames ws (part singular "rhs") = .ok ()

variable {ws : Workspace} {singular plural : String} {isPerson hasEntities : Bool}

/-- A name is checked unless the word has it already. -/
theorem check_unless_known_iff {word : Option SymbolId} {check rest : Outcome Unit} :
    (if word.isNone then check >>= fun _ => rest else rest) = .ok () ↔
      (word = none → check = .ok ()) ∧ rest = .ok () := by
  cases word with
  | some X => simp
  | none => cases check <;> simp [bind, Except.bind]

theorem free_of_checkWordNames (h : checkWordNames ws isPerson hasEntities = .ok ()) :
    (ws.relative isPerson = none →
      ws.draft.find? (Name.bracketed (relativePart isPerson)) = none) ∧
    (hasEntities = true → ws.possessiveSuffix = none →
      ws.draft.find? (Name.bracketed "possessive-suffix") = none) := by
  have hsuffix : (if hasEntities && ws.possessiveSuffix.isNone then
      ws.draft.checkFree "[possessive-suffix]" else pure ()) = .ok () →
      hasEntities = true → ws.possessiveSuffix = none →
        ws.draft.find? (Name.bracketed "possessive-suffix") = none := by
    intro h hhas hnone
    rw [hhas, hnone] at h
    exact checkFree_eq_ok_iff.mp h
  cases isPerson with
  | true =>
    obtain ⟨hrelative, hrest⟩ := check_unless_known_iff.mp h
    exact ⟨fun hnone => checkFree_eq_ok_iff.mp (hrelative hnone), hsuffix hrest⟩
  | false =>
    obtain ⟨hrelative, hrest⟩ := check_unless_known_iff.mp h
    exact ⟨fun hnone => checkFree_eq_ok_iff.mp (hrelative hnone), hsuffix hrest⟩

theorem cleared_of_check (h : check ws singular plural isPerson hasEntities = .ok ()) :
    Cleared ws singular plural isPerson hasEntities := by
  obtain ⟨⟨⟩, hroles, h⟩ := Outcome.ok_of_bind h
  obtain ⟨⟨⟩, hall, h⟩ := Outcome.ok_of_bind h
  obtain ⟨⟨⟩, hallFree, h⟩ := Outcome.ok_of_bind h
  rw [Outcome.guard_eq_ok_iff] at h
  obtain ⟨hcategories, h⟩ := h
  obtain ⟨⟨⟩, hwords, hfamily⟩ := Outcome.ok_of_bind h
  obtain ⟨hrelative, hsuffix⟩ := free_of_checkWordNames hwords
  simp only [Outcome.forM_eq_ok_iff, checkPartFree_eq_ok_iff] at hroles
  refine ⟨hroles, ?_, Conjunction.checkSemanticFree_eq_ok_iff.mp hallFree, ?_, hrelative, hsuffix,
    part_eq singular "rhs" ▸ hfamily⟩
  · by_contra hpart
    simp [Name.checkPart, hpart] at hall
  · intro hhas c hc hname
    by_contra hpruned
    have hlive : c.pruned = false := by simpa using hpruned
    exact hcategories (by simpa [hhas] using ⟨c, hc, hname, hlive⟩)

theorem Cleared.room (h : Cleared ws singular plural isPerson hasEntities) : ws.draft.Room {}
    (parts ws singular isPerson ++ if hasEntities then entityParts ws.possessiveSuffix singular else []) := by
  obtain ⟨hfamily, -⟩ := Conjunction.free_of_checkFamilyNames h.family
  have hroles : ∀ rs : List String, rs ⊆ Category.roles → ∀ p ∈ rs.map (part singular),
      Name.isPart p = true ∧ ws.draft.find? (Name.bracketed p) = none :=
    fun rs hrs => List.forall_mem_map.mpr fun role hrole => h.roles role (hrs hrole)
  have hrelative := free_of_pending (relativePart isPerson) (by cases isPerson <;> decide) h.relative
  refine room_of_free ?_ ?_
  · refine List.forall_mem_append.mpr ⟨List.forall_mem_append.mpr
      ⟨List.forall_mem_append.mpr ⟨hroles ownRoles (by decide), hrelative⟩, hfamily⟩, ?_⟩
    cases hasEntities with
    | false => simp
    | true =>
      have hsuffix := free_of_pending "possessive-suffix" (by decide) (h.suffix rfl)
      refine List.forall_mem_cons.mpr ⟨?_, List.forall_mem_append.mpr ⟨hsuffix, ?_⟩⟩
      · exact hroles ["entity"] (by decide) _ (by simp)
      · exact hroles ["possessive"] (by decide)
  · refine (nodup_parts ws singular isPerson).sublist (List.Sublist.append_left ?_ _)
    cases hasEntities with
    | true => exact .refl _
    | false => exact List.nil_sublist _

end Category

end QueryGrammar
