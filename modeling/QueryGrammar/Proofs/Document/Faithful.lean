import QueryGrammar.Proofs.Document.Rows
import QueryGrammar.Proofs.Json.Numeral
/-!
Rows whose costs are finite lose nothing by being written: two of them that are written alike are
the same in every part. So each of them stands in the document that it was made for, and which rows
there are settles what is written.
-/
namespace QueryGrammar

open Json

namespace Json

theorem text_injective : Function.Injective text :=
  fun _ _ h => Option.some.inj (Json.string.inj h)

theorem nat_injective : Function.Injective nat := by
  intro m n h
  have hdigits : Nat.toDigits 10 m = Nat.toDigits 10 n :=
    congrArg Numeral.whole (Json.number.inj h)
  rw [← Numeral.digitsValue_toDigits m, hdigits, Numeral.digitsValue_toDigits]

theorem find?_listMember (name : String) (items : List Json) :
    Keyed.find? name (listMember name items) =
      if items = [] then none else some (.array items) := by
  cases items <;> simp [listMember, Keyed.find?]

/-- A list that is left out where it is empty is settled by what is found of it. -/
theorem items_inj {xs ys : List Json} (h : (if xs = [] then none else some (Json.array xs)) =
    if ys = [] then none else some (Json.array ys)) : xs = ys := by
  split at h <;> split at h <;> simp_all

end Json

/-! ### Parts without names -/

theorem PersonNumber.written_injective : Function.Injective written := by
  intro a b h
  cases a <;> cases b <;> first | rfl | simp [written] at h

theorem GrammaticalCase.written_injective : Function.Injective written := by
  intro a b h
  cases a <;> cases b <;> first | rfl | simp [written] at h

theorem Tense.written_injective : Function.Injective written := by
  intro a b h
  cases a <;> cases b <;> first | rfl | simp [written] at h

theorem Side.written_injective : Function.Injective written := by
  intro a b h
  cases a <;> cases b <;> first | rfl | simp [written] at h

theorem Features.eq_of_isEmpty : {f : Features} → f.isEmpty = true → f = {}
  | ⟨_, _, _⟩, h => by simpa [Features.isEmpty, and_assoc] using h

theorem Features.toJson_injective : Function.Injective Features.toJson := by
  intro a b h
  have hfind := fun key => congrArg (Keyed.find? key) (record_inj h)
  have hperson : a.personNumber = b.personNumber := by
    apply Option.map_injective (text_injective.comp PersonNumber.written_injective)
    simpa [find?_append, find?_optionalMember, Function.comp_def] using hfind "personNumber"
  have hcase : a.case = b.case := by
    apply Option.map_injective (text_injective.comp GrammaticalCase.written_injective)
    simpa [find?_append, find?_optionalMember, Function.comp_def] using hfind "case"
  have htense : a.tense = b.tense := by
    apply Option.map_injective (text_injective.comp Tense.written_injective)
    simpa [find?_append, find?_optionalMember, Function.comp_def] using hfind "tense"
  cases a
  cases b
  rw [Features.mk.injEq]
  exact ⟨hperson, hcase, htense⟩

theorem Inflections.toJson_injective : Function.Injective Inflections.toJson := by
  intro a b h
  have hfind := fun key => congrArg (Keyed.find? key) (record_inj h)
  have hinj := Option.map_injective text_injective
  cases a
  cases b
  rw [Inflections.mk.injEq]
  refine ⟨hinj ?_, hinj ?_, hinj ?_, hinj ?_, hinj ?_, hinj ?_⟩
  · simpa [find?_append, find?_optionalMember] using hfind "oneSg"
  · simpa [find?_append, find?_optionalMember] using hfind "threeSg"
  · simpa [find?_append, find?_optionalMember] using hfind "pl"
  · simpa [find?_append, find?_optionalMember] using hfind "past"
  · simpa [find?_append, find?_optionalMember] using hfind "nom"
  · simpa [find?_append, find?_optionalMember] using hfind "obj"

theorem DisplayText.toJson_injective : Function.Injective DisplayText.toJson := by
  intro a b h
  cases a with
  | verbatim => cases b <;> simp [DisplayText.toJson, text, record] at h ⊢
  | silent => cases b <;> simp [DisplayText.toJson, text, record] at h ⊢
  | replace s =>
    cases b with
    | replace t =>
      have hmember := (List.cons.inj (record_inj h)).1
      rw [text_injective (Prod.mk.inj hmember).2]
    | _ => simp [DisplayText.toJson, text, record] at h
  | inflected forms =>
    cases b with
    | inflected forms' =>
      have hmember := (List.cons.inj (record_inj h)).1
      rw [Inflections.toJson_injective (Prod.mk.inj hmember).2]
    | _ => simp [DisplayText.toJson, text, record] at h

theorem Segment.toJson_injective : Function.Injective Segment.toJson := by
  intro a b h
  cases a with
  | literal s =>
    cases b with
    | literal t => rw [text_injective h]
    | inflected forms => simp [Segment.toJson, Inflections.toJson, text, record] at h
  | inflected forms =>
    cases b with
    | literal t => simp [Segment.toJson, Inflections.toJson, text, record] at h
    | inflected forms' => rw [Inflections.toJson_injective h]

mutual

theorem Provenance.toJson_inj : (t u : Provenance) → t.toJson = u.toJson → t = u
  | .mk s x ts, .mk s' x' us, h => by
    rw [Provenance.toJson, Provenance.toJson] at h
    have hfind := fun key => congrArg (Keyed.find? key) (record_inj h)
    have hsymbol : Json.text s = Json.text s' := by
      simpa [Keyed.find?_cons] using hfind "symbol"
    have htext : x.map Segment.toJson = x'.map Segment.toJson := by
      apply items_inj
      simpa [-List.map_eq_nil_iff, find?_append, find?_listMember, find?_listMember_of_ne,
        Keyed.find?_cons] using hfind "text"
    have hchildren : Provenance.toJsonList ts = Provenance.toJsonList us := by
      apply items_inj
      simpa [find?_append, find?_listMember, find?_listMember_of_ne, Keyed.find?_cons] using
        hfind "children"
    have hsegments := List.map_injective_iff.mpr Segment.toJson_injective htext
    rw [text_injective hsymbol, hsegments, Provenance.toJsonList_inj ts us hchildren]

theorem Provenance.toJsonList_inj : (ts us : List Provenance) →
    Provenance.toJsonList ts = Provenance.toJsonList us → ts = us
  | [], [], _ => rfl
  | [], _ :: _, h => by simp [Provenance.toJsonList] at h
  | _ :: _, [], h => by simp [Provenance.toJsonList] at h
  | t :: ts, u :: us, h => by
    rw [Provenance.toJsonList, Provenance.toJsonList] at h
    obtain ⟨hhead, htail⟩ := List.cons.inj h
    rw [Provenance.toJson_inj t u hhead, Provenance.toJsonList_inj ts us htail]

end

/-! ### Edits -/

theorem NamedNode.array_injective :
    Function.Injective fun ns : List NamedNode => Json.array (NamedNode.toJsonList ns) :=
  fun ns ms h => NamedNode.toJsonList_inj ns ms (Json.array.inj h)

theorem NamedInsertion.eq_of_toJson {i j : NamedInsertion}
    (hcost : Json.float i.cost = Json.float j.cost → i.cost = j.cost)
    (h : i.toJson = j.toJson) : i = j := by
  have hfind := fun key => congrArg (Keyed.find? key) (record_inj h)
  have hcost : i.cost = j.cost := by
    apply hcost
    simpa [Keyed.find?_cons] using hfind "cost"
  have hposition : i.position = j.position := by
    apply text_injective.comp Side.written_injective
    simpa [Keyed.find?_cons] using hfind "position"
  have htext : i.text = j.text := by
    apply List.map_injective_iff.mpr Segment.toJson_injective
    apply items_inj
    simpa [-List.map_eq_nil_iff, find?_append, find?_optionalMember, find?_listMember,
      Keyed.find?_cons] using hfind "text"
  have hsemantic : i.semantic = j.semantic := by
    apply Option.map_injective NamedNode.array_injective
    simpa [find?_append, find?_optionalMember, find?_listMember_of_ne, Keyed.find?_cons] using
      hfind "semantic"
  have htree : i.tree = j.tree := by
    apply Option.map_injective fun t u => Provenance.toJson_inj t u
    simpa [find?_append, find?_optionalMember, find?_listMember_of_ne, Keyed.find?_cons] using
      hfind "tree"
  cases i
  cases j
  rw [NamedInsertion.mk.injEq]
  exact ⟨hcost, hposition, htext, hsemantic, htree⟩

def NamedEdit.cost : NamedEdit → Float
  | .insertion i => i.cost
  | .transposition cost => cost

/-- Edits that are written alike are the same if their costs are. -/
theorem NamedEdit.eq_of_toJson {x y : NamedEdit}
    (hcost : Json.float x.cost = Json.float y.cost → x.cost = y.cost)
    (h : x.toJson = y.toJson) : x = y := by
  cases x with
  | insertion i =>
    cases y with
    | insertion j =>
      have hmember := (List.cons.inj (record_inj h)).1
      rw [NamedInsertion.eq_of_toJson hcost (Prod.mk.inj hmember).2]
    | transposition cost => simp [NamedEdit.toJson, record] at h
  | transposition cost =>
    cases y with
    | insertion j => simp [NamedEdit.toJson, record] at h
    | transposition price =>
      have hmember := (List.cons.inj (record_inj h)).1
      have hwritten := (List.cons.inj (record_inj (Prod.mk.inj hmember).2)).1
      have heq : cost = price := hcost (Prod.mk.inj hwritten).2
      rw [heq]

/-! ### Rows -/

namespace NamedRule

/-- Every cost in the row is finite, that of its edit too. -/
structure Finite (row : NamedRule) : Prop where
  insertion : ∀ cost, row.insertionCost = some cost → cost.isFinite = true
  transposition : ∀ cost, row.transpositionCost = some cost → cost.isFinite = true
  edit : ∀ edit, row.edit = some edit → edit.cost.isFinite = true

/-- What is written of an optional part settles it, where it does so for each value. -/
theorem option_eq_of_map {α : Type} {f : α → Json} {x y : Option α}
    (hf : ∀ v, x = some v → ∀ w, y = some w → f v = f w → v = w) (h : x.map f = y.map f) :
    x = y := by
  cases x with
  | none => exact (Option.map_eq_none_iff.mp h.symm).symm
  | some v =>
    obtain ⟨w, rfl, hw⟩ := Option.map_eq_some_iff.mp h.symm
    rw [hf v rfl w rfl hw.symm]

/-- Features are left out where there are none. -/
theorem features_eq_of_find? {a b : NamedRule}
    (h : Keyed.find? "features" (if a.features.isEmpty = true then []
        else [("features", a.features.toJson)]) =
      Keyed.find? "features" (if b.features.isEmpty = true then []
        else [("features", b.features.toJson)])) : a.features = b.features := by
  split at h <;> split at h
  next ha hb => rw [Features.eq_of_isEmpty ha, Features.eq_of_isEmpty hb]
  next => simp [Keyed.find?] at h
  next => simp [Keyed.find?] at h
  next => exact Features.toJson_injective (by simpa [Keyed.find?] using h)

section Members

variable (rule : NamedRule)

theorem find?_members_text :
    Keyed.find? "text" rule.members = rule.text.map DisplayText.toJson := by
  simp [members, find?_append, find?_optionalMember, find?_listMember_of_ne, find?_features,
    Keyed.find?_cons]

theorem find?_members_features : Keyed.find? "features" rule.members =
    Keyed.find? "features" (if rule.features.isEmpty = true then []
      else [("features", rule.features.toJson)]) := by
  simp [members, find?_append, find?_optionalMember, find?_listMember_of_ne, Keyed.find?_cons]

theorem find?_members_insertionCost :
    Keyed.find? "insertionCost" rule.members = rule.insertionCost.map Json.float := by
  simp [members, find?_append, find?_optionalMember, find?_listMember_of_ne, find?_features,
    Keyed.find?_cons]

theorem find?_members_transpositionCost :
    Keyed.find? "transpositionCost" rule.members = rule.transpositionCost.map Json.float := by
  simp [members, find?_append, find?_optionalMember, find?_listMember_of_ne, find?_features,
    Keyed.find?_cons]

theorem find?_members_noInsertionIndexes : Keyed.find? "noInsertionIndexes" rule.members =
    if rule.noInsertionIndexes.map (fun i => Json.nat i.toNat) = [] then none
    else some (.array (rule.noInsertionIndexes.map fun i => Json.nat i.toNat)) := by
  simp [-List.map_eq_nil_iff, members, find?_append, find?_optionalMember, find?_listMember,
    find?_features, Keyed.find?_cons]

end Members

/-- Rows that are written alike have the same text. -/
theorem text_eq_of_sortKey_eq {a b : NamedRule} (h : a.sortKey = b.sortKey) : a.text = b.text := by
  have hmembers : a.members = b.members := record_inj (toJson_eq_of_sortKey_eq h)
  apply Option.map_injective DisplayText.toJson_injective
  rw [← find?_members_text, hmembers, find?_members_text]

/-- Rows with finite costs of their own are told apart by the texts they are sorted by if their
edits are. -/
theorem eq_of_sortKey_eq_of_edit {a b : NamedRule}
    (hinsertion : ∀ cost, a.insertionCost = some cost → cost.isFinite = true)
    (htransposition : ∀ cost, a.transpositionCost = some cost → cost.isFinite = true)
    (hedit : ∀ x, a.edit = some x → ∀ y, b.edit = some y →
      Json.float x.cost = Json.float y.cost → x.cost = y.cost)
    (h : a.sortKey = b.sortKey) : a = b := by
  obtain ⟨hrhs, hsemantic, -⟩ := alike_of_sortKey_eq h
  have hmembers : a.members = b.members := record_inj (toJson_eq_of_sortKey_eq h)
  have htext := text_eq_of_sortKey_eq h
  have hfeatures : a.features = b.features := by
    apply features_eq_of_find?
    rw [← find?_members_features, hmembers, find?_members_features]
  have hinsertion : a.insertionCost = b.insertionCost := by
    apply option_eq_of_map fun x hx y _ hxy => float_inj (hinsertion x hx) hxy
    rw [← find?_members_insertionCost, hmembers, find?_members_insertionCost]
  have htransposition : a.transpositionCost = b.transpositionCost := by
    apply option_eq_of_map fun x hx y _ hxy => float_inj (htransposition x hx) hxy
    rw [← find?_members_transpositionCost, hmembers, find?_members_transpositionCost]
  have hindexes : a.noInsertionIndexes = b.noInsertionIndexes := by
    have hinj : Function.Injective fun i : UInt64 => nat i.toNat :=
      fun i j hij => UInt64.toNat_inj.mp (nat_injective hij)
    apply List.map_injective_iff.mpr hinj
    apply items_inj
    rw [← find?_members_noInsertionIndexes, hmembers, find?_members_noInsertionIndexes]
  have hedit : a.edit = b.edit :=
    option_eq_of_map (fun x hx y hy hxy => NamedEdit.eq_of_toJson (hedit x hx y hy) hxy)
      (editJson_eq_of_sortKey_eq h)
  cases a
  cases b
  rw [NamedRule.mk.injEq]
  exact ⟨hrhs, htext, hsemantic, hfeatures, hinsertion, htransposition, hindexes, hedit⟩

/-- Rows of finite costs are told apart by the texts they are sorted by. -/
theorem eq_of_sortKey_eq {a b : NamedRule} (ha : a.Finite) (h : a.sortKey = b.sortKey) :
    a = b :=
  eq_of_sortKey_eq_of_edit ha.insertion ha.transposition
    (fun x hx _ _ hxy => float_inj (ha.edit x hx) hxy) h

/-- A row of finite costs is kept. -/
theorem mem_canonical {rules : List NamedRule} {rule : NamedRule} (hfinite : rule.Finite)
    (h : rule ∈ rules) : rule ∈ canonical rules := by
  obtain ⟨kept, hkept, hkey⟩ := Keyed.exists_mem_distinct sortKey h
  rw [eq_of_sortKey_eq hfinite hkey.symm]
  exact hkept

/-- Rows of finite costs are kept exactly, in the one order that their texts give them: none is lost
to another, and neither their order nor their repetition shows afterwards. -/
theorem canonical_exact {rows : List NamedRule} (hfinite : ∀ row ∈ rows, row.Finite) :
    (canonical rows).Pairwise (fun a b => a.sortKey < b.sortKey) ∧
    (∀ row, row ∈ canonical rows ↔ row ∈ rows) ∧
    (∀ a ∈ rows, ∀ b : NamedRule, a.sortKey = b.sortKey → a = b) ∧
    (∀ others, (∀ row, row ∈ others ↔ row ∈ rows) → canonical others = canonical rows) ∧
    (∀ sorted : List NamedRule, sorted.Pairwise (fun a b => a.sortKey < b.sortKey) →
      (∀ row, row ∈ sorted ↔ row ∈ rows) → sorted = canonical rows) ∧
    canonical (canonical rows) = canonical rows := by
  have hapart : ∀ a ∈ rows, ∀ b : NamedRule, a.sortKey = b.sortKey → a = b :=
    fun a ha b => eq_of_sortKey_eq (hfinite a ha)
  have hmem : ∀ row, row ∈ canonical rows ↔ row ∈ rows :=
    fun row => mem_canonical_iff fun a ha => hapart a ha row
  have hsame : ∀ others, (∀ row, row ∈ others ↔ row ∈ rows) → canonical others = canonical rows :=
    fun others h => (canonical_eq (fun row => (h row).symm) fun a ha b _ => hapart a ha b).symm
  refine ⟨pairwise_canonical rows, hmem, hapart, hsame, ?_, hsame _ hmem⟩
  intro sorted hsorted h
  exact Keyed.eq_of_pairwise_of_mem_iff sortKey hsorted (pairwise_canonical rows) fun row =>
    (h row).trans (hmem row).symm

/-- A row that shows a word, suggested at a cost. -/
def suggested (word : String) (cost : Float) : NamedRule :=
  { rhs := .terminal word, insertionCost := some cost }

theorem finite_suggested {word : String} {cost : Float} (h : cost.isFinite = true) :
    (suggested word cost).Finite where
  insertion x hx := Option.some.inj hx ▸ h
  transposition x hx := by cases hx
  edit x hx := by cases hx

/-- The two zeros are told apart, and a row that is given twice is kept once. -/
theorem canonical_exact_zeros :
    (∀ row ∈ [suggested "b" 1.0, suggested "a" 0.0, suggested "b" 1.0, suggested "a" (-0.0)],
      row.Finite) ∧
    canonical [suggested "b" 1.0, suggested "a" 0.0, suggested "b" 1.0, suggested "a" (-0.0)] =
      [suggested "a" (-0.0), suggested "a" 0.0, suggested "b" 1.0] := by
  have hfinite : ∀ row ∈ [suggested "b" 1.0, suggested "a" 0.0, suggested "b" 1.0,
      suggested "a" (-0.0)], row.Finite := by
    simp only [List.forall_mem_cons, List.not_mem_nil, false_imp_iff, implies_true, and_true]
    exact ⟨finite_suggested (by decide), finite_suggested (by decide), finite_suggested (by decide),
      finite_suggested (by decide)⟩
  obtain ⟨-, -, -, -, hunique, -⟩ := canonical_exact hfinite
  refine ⟨hfinite, (hunique _ (by decide +kernel) fun row => ?_).symm⟩
  simp only [List.mem_cons, List.not_mem_nil, or_false]
  tauto

end NamedRule

end QueryGrammar
