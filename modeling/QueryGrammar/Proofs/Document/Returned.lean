import QueryGrammar.Document.Reader
import QueryGrammar.Proofs.Document.Faithful
import QueryGrammar.Proofs.Json.Decoded
import QueryGrammar.Proofs.Named.Rows
/-!
Every part of a document is decoded from its written form as it was: parts that were left out are
absent again, tags are found by their names, and trees come back with all their children.
-/
namespace QueryGrammar

open Json Decoder

variable {levels : Nat} {members : List (String × Json)}

/-- The members of a record that is being read, each within the levels left. -/
abbrev Shallow (levels : Nat) (members : List (String × Json)) : Prop :=
  ∀ name, ∀ j ∈ Keyed.find? name members, j.depth ≤ levels

theorem absent_eq {α : Type} (name : String) (value : Option α) {decode : Decoder α}
    {f : α → Json} (hdepth : Shallow levels members)
    (hfind : Keyed.find? name members = value.map f)
    (h : ∀ x ∈ value, decode.Reads (f x) x ∧ f x ≠ .null) :
    absent decode levels (Keyed.find? name members) = some value := by
  have hname := hdepth name
  rw [hfind] at hname ⊢
  exact readsMember_absent h levels hname

theorem present_eq {α : Type} (name : String) {value : α} {decode : Decoder α} {j : Json}
    (hdepth : Shallow levels members) (hfind : Keyed.find? name members = some j)
    (h : decode.Reads j value) : present decode levels (Keyed.find? name members) = some value := by
  have hname := hdepth name
  rw [hfind] at hname ⊢
  exact h.present levels hname

/-- A list that is left out where it is empty. -/
theorem list_eq {α : Type} (name : String) (items : List α) {decode : Decoder α} {f : α → Json}
    (hdepth : Shallow levels members)
    (hfind : Keyed.find? name members = Keyed.find? name (listMember name (items.map f)))
    (h : ∀ x, decode.Reads (f x) x) :
    orElse [] (list decode) levels (Keyed.find? name members) = some items := by
  have hname := hdepth name
  rw [hfind] at hname ⊢
  exact readsMember_list (fun x _ => h x) levels hname

/-! ### Parts without names -/

theorem PersonNumber.reads (x : PersonNumber) : (tag ofName?).Reads (.text x.written) x := by
  cases x <;> exact reads_tag rfl

theorem GrammaticalCase.reads (x : GrammaticalCase) : (tag ofName?).Reads (.text x.written) x := by
  cases x <;> exact reads_tag rfl

theorem Tense.reads (x : Tense) : (tag ofName?).Reads (.text x.written) x := by
  cases x <;> exact reads_tag rfl

theorem Side.reads (x : Side) : (tag ofName?).Reads (.text x.written) x := by
  cases x <;> exact reads_tag rfl

theorem Features.reads (f : Features) : Features.decode.Reads f.toJson f := by
  refine reads_record ?_ (by decide) fun levels hdepth => ?_
  · rw [List.map_append, List.map_append]
    exact ((sublist_optionalMember _ _).append (sublist_optionalMember _ _)).append
      (sublist_optionalMember _ _)
  · have hperson := absent_eq "personNumber" f.personNumber hdepth
      (by simp [find?_append, find?_optionalMember]) fun x _ => ⟨x.reads, nofun⟩
    have hcase := absent_eq "case" f.case hdepth
      (by simp [find?_append, find?_optionalMember]) fun x _ => ⟨x.reads, nofun⟩
    have htense := absent_eq "tense" f.tense hdepth
      (by simp [find?_append, find?_optionalMember]) fun x _ => ⟨x.reads, nofun⟩
    simp only [List.map_cons, List.map_nil, hperson, hcase, htense, Option.bind_eq_bind,
      Option.bind_some]
    rfl

theorem Inflections.reads (forms : Inflections) : Inflections.decode.Reads forms.toJson forms := by
  refine reads_record ?_ (by decide) fun levels hdepth => ?_
  · simp only [List.map_append]
    exact (((((sublist_optionalMember _ _).append (sublist_optionalMember _ _)).append
      (sublist_optionalMember _ _)).append (sublist_optionalMember _ _)).append
      (sublist_optionalMember _ _)).append (sublist_optionalMember _ _)
  · have hform := fun name value hfind =>
      absent_eq name value hdepth hfind fun s _ => ⟨reads_text s, nofun⟩
    have h₁ := hform "oneSg" forms.oneSg (by simp [find?_append, find?_optionalMember])
    have h₂ := hform "threeSg" forms.threeSg (by simp [find?_append, find?_optionalMember])
    have h₃ := hform "pl" forms.pl (by simp [find?_append, find?_optionalMember])
    have h₄ := hform "past" forms.past (by simp [find?_append, find?_optionalMember])
    have h₅ := hform "nom" forms.nom (by simp [find?_append, find?_optionalMember])
    have h₆ := hform "obj" forms.obj (by simp [find?_append, find?_optionalMember])
    simp only [List.map_cons, List.map_nil, h₁, h₂, h₃, h₄, h₅, h₆, Option.bind_eq_bind,
      Option.bind_some]
    rfl

theorem DisplayText.reads : (text : DisplayText) → DisplayText.decode.Reads text.toJson text
  | .verbatim => reads_tagged_bare rfl
  | .silent => reads_tagged_bare rfl
  | .replace _ => reads_tagged fun _ _ => rfl
  | .inflected forms => reads_tagged fun levels hdepth => (forms.reads.map inflected) levels hdepth

/-- A table of forms is taken in whole, as every form is a text. -/
theorem Inflections.isWhole {forms : Inflections} (h : forms.toJson.depth ≤ levels) :
    isWhole levels forms.toJson = true := by
  obtain ⟨n, rfl, -⟩ := depth_record_le_iff.mp h
  have hform : ∀ (name : String) (form : Option String),
      ∀ m ∈ optionalMember name (form.map .text), Decoder.isWhole n m.2 = true := by
    intro name form m hm
    obtain ⟨s, -, rfl⟩ : ∃ s, form = some s ∧ m = (name, Json.text s) := by
      cases form <;> simp_all [optionalMember]
    cases n <;> rfl
  simp only [Inflections.toJson, Json.record, Decoder.isWhole, List.all_map, List.all_eq_true,
    List.mem_append, Function.comp_apply, Option.isSome_some, Bool.true_and]
  rintro m (((((hm | hm) | hm) | hm) | hm) | hm)
  all_goals exact hform _ _ m hm

theorem Segment.reads : (segment : Segment) → Segment.decode.Reads segment.toJson segment
  | .literal s => fun levels _ => by cases levels <;> rfl
  | .inflected forms => fun levels hdepth => by
    have hforms := (forms.reads.map inflected) levels hdepth
    have hdecode : Segment.decode levels forms.toJson =
        (Inflections.decode levels forms.toJson).map inflected :=
      if_pos (Inflections.isWhole hdepth)
    exact hdecode.trans hforms

/-! ### Trees -/

mutual

theorem Provenance.reads : (t : Provenance) → Reads Provenance.decode t.toJson t
  | .mk symbol text children => by
    intro levels hdepth
    rw [Provenance.toJson] at hdepth ⊢
    obtain ⟨n, rfl, hmembers⟩ := depth_record_le_iff.mp hdepth
    have hshallow : Shallow n _ := fun name j hj => hmembers (name, j) (Keyed.mem_of_find? hj)
    have hnames : (((("symbol", Json.text symbol) :: listMember "text" (text.map Segment.toJson)) ++
        listMember "children" (Provenance.toJsonList children)).map Prod.fst).Sublist
          ["symbol", "text", "children"] := by
      rw [List.map_append, List.map_cons]
      exact ((sublist_listMember _ _).cons_cons _).append (sublist_listMember _ _)
    have hsymbol := present_eq "symbol" hshallow (by simp [Keyed.find?_cons]) (reads_text symbol)
    have htext := list_eq "text" text hshallow
      (by simp [find?_append, find?_listMember_of_ne, Keyed.find?_cons]) Segment.reads
    have hchildren : Keyed.find? "children" (("symbol", Json.text symbol) ::
        listMember "text" (text.map Segment.toJson) ++
        listMember "children" (Provenance.toJsonList children)) =
          if Provenance.toJsonList children = [] then none
          else some (.array (Provenance.toJsonList children)) := by
      simp [find?_append, find?_listMember, find?_listMember_of_ne, Keyed.find?_cons]
    rw [Provenance.decode, fields_record ((by decide : List.Nodup _).sublist hnames)]
    simp only [List.map_cons, List.map_nil, hsymbol, htext, Option.bind_eq_bind, Option.bind_some]
    have hlevels := hshallow "children"
    rw [hchildren] at hlevels ⊢
    cases children with
    | nil => rfl
    | cons t ts =>
      obtain ⟨k, rfl, hitems⟩ := depth_array_le_iff.mp (hlevels _ rfl)
      have hlist := Provenance.reads_list (t :: ts) k hitems
      simp only [Provenance.toJsonList] at hlist
      simp only [Provenance.toJsonList, reduceCtorEq, if_false, Provenance.decodeList, hlist]
      rfl

theorem Provenance.reads_list : (ts : List Provenance) → ∀ levels,
    (∀ j ∈ Provenance.toJsonList ts, j.depth ≤ levels) →
      (Provenance.toJsonList ts).mapM (Provenance.decode levels) = some ts
  | [], _, _ => rfl
  | t :: ts, levels, hdepth => by
    rw [Provenance.toJsonList, List.forall_mem_cons] at hdepth
    rw [Provenance.toJsonList, List.mapM_cons, Provenance.reads t levels hdepth.1,
      Provenance.reads_list ts levels hdepth.2]
    rfl

end

mutual

theorem NamedNode.reads : (n : NamedNode) → Reads NamedNode.decode n.toJson n
  | .mk semantic children => by
    intro levels hdepth
    rw [NamedNode.toJson] at hdepth ⊢
    obtain ⟨n, rfl, hmembers⟩ := depth_record_le_iff.mp hdepth
    have hshallow : Shallow n _ := fun name j hj => hmembers (name, j) (Keyed.mem_of_find? hj)
    have hnames : ((("semantic", Json.text semantic) ::
        listMember "children" (NamedNode.toJsonList children)).map Prod.fst).Sublist
          ["semantic", "children"] :=
      (sublist_listMember _ _).cons_cons _
    have hsemantic := present_eq "semantic" hshallow (by simp [Keyed.find?_cons])
      (reads_text semantic)
    have hchildren : Keyed.find? "children" (("semantic", Json.text semantic) ::
        listMember "children" (NamedNode.toJsonList children)) =
          if NamedNode.toJsonList children = [] then none
          else some (.array (NamedNode.toJsonList children)) := by
      simp [find?_listMember, Keyed.find?_cons]
    rw [NamedNode.decode, fields_record ((by decide : List.Nodup _).sublist hnames)]
    simp only [List.map_cons, List.map_nil, hsemantic, Option.bind_eq_bind, Option.bind_some]
    have hlevels := hshallow "children"
    rw [hchildren] at hlevels ⊢
    cases children with
    | nil => rfl
    | cons t ts =>
      obtain ⟨k, rfl, hitems⟩ := depth_array_le_iff.mp (hlevels _ rfl)
      have hlist := NamedNode.reads_list (t :: ts) k hitems
      simp only [NamedNode.toJsonList] at hlist
      simp only [NamedNode.toJsonList, reduceCtorEq, if_false, NamedNode.decodeList, hlist]
      rfl

theorem NamedNode.reads_list : (ns : List NamedNode) → ∀ levels,
    (∀ j ∈ NamedNode.toJsonList ns, j.depth ≤ levels) →
      (NamedNode.toJsonList ns).mapM (NamedNode.decode levels) = some ns
  | [], _, _ => rfl
  | n :: ns, levels, hdepth => by
    rw [NamedNode.toJsonList, List.forall_mem_cons] at hdepth
    rw [NamedNode.toJsonList, List.mapM_cons, NamedNode.reads n levels hdepth.1,
      NamedNode.reads_list ns levels hdepth.2]
    rfl

end

theorem NamedNode.reads_array (ns : List NamedNode) :
    Reads NamedNode.decodeList (.array (NamedNode.toJsonList ns)) ns := by
  intro levels hdepth
  obtain ⟨n, rfl, hitems⟩ := depth_array_le_iff.mp hdepth
  exact NamedNode.reads_list ns n hitems

/-! ### Rows and definitions -/

theorem SemanticTraits.reads {s : SemanticTraits} (hcost : Exact s.cost) :
    SemanticTraits.decode.Reads s.toJson s := by
  refine reads_record (List.Sublist.refl _) (by decide) fun levels hdepth => ?_
  have hmin := present_eq "minParams" hdepth (by simp [Keyed.find?_cons]) (reads_word64 s.minParams)
  have hmax := present_eq "maxParams" hdepth (by simp [Keyed.find?_cons]) (reads_word64 s.maxParams)
  have hread := present_eq "cost" hdepth (by simp [Keyed.find?_cons]) (reads_float hcost)
  have harg := present_eq "isArg" hdepth (by simp [Keyed.find?_cons]) (reads_flag s.isArg)
  have hforbids := present_eq "forbidsMultiple" hdepth (by simp [Keyed.find?_cons])
    (reads_flag s.forbidsMultiple)
  simp only [List.map_cons, List.map_nil, hmin, hmax, hread, harg, hforbids, Option.bind_eq_bind,
    Option.bind_some]
  rfl

theorem NamedRhs.reads : (rhs : NamedRhs) → NamedRhs.decode.Reads rhs.toJson rhs
  | .symbols names => reads_tagged fun levels hdepth => (reads_texts names).map symbols levels hdepth
  | .terminal _ => reads_tagged fun _ _ => rfl
  | .termSequence names =>
    reads_tagged fun levels hdepth => (reads_texts names).map termSequence levels hdepth
  | .placeholder _ => reads_tagged fun _ _ => rfl

theorem NamedAttachment.reads : (a : NamedAttachment) → NamedAttachment.decode.Reads a.toJson a
  | .fixed nodes =>
    reads_tagged fun levels hdepth => (NamedNode.reads_array nodes).map fixed levels hdepth
  | .deferred functions =>
    reads_tagged fun levels hdepth => (reads_texts functions).map deferred levels hdepth

theorem Provenance.toJson_ne_null : (t : Provenance) → t.toJson ≠ .null
  | .mk _ _ _ => by simp [Provenance.toJson, Json.record]

theorem NamedInsertion.reads {i : NamedInsertion} (hcost : Exact i.cost) :
    NamedInsertion.decode.Reads i.toJson i := by
  refine reads_record ?_ (by decide) fun levels hdepth => ?_
  · simp only [List.map_append]
    exact (((List.Sublist.refl _).append (sublist_listMember _ _)).append
      (sublist_optionalMember _ _)).append (sublist_optionalMember _ _)
  · have hread := present_eq "cost" hdepth (by simp [Keyed.find?_cons]) (reads_float hcost)
    have hposition := present_eq "position" hdepth (by simp [Keyed.find?_cons]) i.position.reads
    have htext := list_eq "text" i.text hdepth
      (by simp [find?_append, find?_optionalMember, Keyed.find?_cons]) Segment.reads
    have hsemantic := absent_eq "semantic" i.semantic hdepth
      (by simp [find?_append, find?_optionalMember, find?_listMember_of_ne, Keyed.find?_cons])
      fun ns _ => ⟨NamedNode.reads_array ns, nofun⟩
    have htree := absent_eq "tree" i.tree hdepth
      (by simp [find?_append, find?_optionalMember, find?_listMember_of_ne, Keyed.find?_cons])
      fun t _ => ⟨t.reads, t.toJson_ne_null⟩
    simp only [List.map_cons, List.map_nil, hread, hposition, htext, hsemantic, htree,
      Option.bind_eq_bind, Option.bind_some]
    rfl

theorem NamedEdit.reads : {edit : NamedEdit} → Exact edit.cost →
    NamedEdit.decode.Reads edit.toJson edit
  | .insertion _, hcost => reads_tagged fun levels hdepth =>
    (NamedInsertion.reads hcost).map insertion levels hdepth
  | .transposition cost, hcost => by
    refine reads_tagged (reads_record (List.Sublist.refl _) (by decide) fun levels hdepth => ?_)
    have hfind : Keyed.find? "cost" [("cost", Json.float cost)] = some (.float cost) := by
      simp [Keyed.find?_cons]
    have hread := present_eq "cost" hdepth hfind (reads_float hcost)
    simp only [List.map_cons, List.map_nil, hread]
    rfl

theorem float_ne_null {x : Float} (h : Exact x) : Json.float x ≠ .null := by
  rw [Json.float, if_pos h.1]
  exact Json.noConfusion

theorem DisplayText.toJson_ne_null (text : DisplayText) : text.toJson ≠ .null := by
  cases text <;> exact nofun

theorem NamedAttachment.toJson_ne_null (a : NamedAttachment) : a.toJson ≠ .null := by
  cases a <;> exact nofun

theorem NamedEdit.toJson_ne_null (edit : NamedEdit) : edit.toJson ≠ .null := by
  cases edit <;> exact nofun

namespace NamedRule

theorem cost_mem_costs {rule : NamedRule} {edit : NamedEdit} (h : rule.edit = some edit) :
    edit.cost ∈ rule.costs := by
  cases edit <;> simp [costs, h, NamedEdit.cost]

theorem reads {rule : NamedRule} (hcosts : ∀ x ∈ rule.costs, Exact x) :
    NamedRule.decode.Reads rule.toJson rule := by
  change NamedRule.decode.Reads (Json.record rule.members) rule
  refine reads_record ?_ (by decide) fun levels hdepth => ?_
  · have hfeatures : ((if rule.features.isEmpty then [] else [("features", rule.features.toJson)]).map
        Prod.fst).Sublist ["features"] := by
      split
      · exact List.nil_sublist _
      · exact List.Sublist.refl _
    simp only [members, List.map_append, List.map_cons]
    exact (((((((sublist_optionalMember _ _).cons_cons _).append (sublist_optionalMember _ _)).append
      hfeatures).append (sublist_optionalMember _ _)).append (sublist_optionalMember _ _)).append
      (sublist_listMember _ _)).append (sublist_optionalMember _ _)
  · have hrhs := present_eq "rhs" hdepth (by simp [members, Keyed.find?_cons]) rule.rhs.reads
    have htext := absent_eq "text" rule.text hdepth rule.find?_members_text
      fun x _ => ⟨x.reads, x.toJson_ne_null⟩
    have hsemantic := absent_eq "semantic" rule.semantic hdepth rule.find?_members_semantic
      fun x _ => ⟨x.reads, x.toJson_ne_null⟩
    have hfeatures : orElse {} Features.decode levels (Keyed.find? "features" rule.members) =
        some rule.features := by
      have hname := hdepth "features"
      rw [find?_members_features] at hname ⊢
      split at hname
      next hempty =>
        rw [if_pos hempty, Features.eq_of_isEmpty hempty]
        rfl
      next hsome =>
        rw [if_neg hsome]
        exact rule.features.reads levels (hname _ (by simp [Keyed.find?_cons]))
    have hinsertion := absent_eq "insertionCost" rule.insertionCost hdepth
      rule.find?_members_insertionCost fun x hx =>
        have hexact := hcosts x (by simp [costs, Option.mem_def.mp hx])
        ⟨reads_float hexact, float_ne_null hexact⟩
    have htransposition := absent_eq "transpositionCost" rule.transpositionCost hdepth
      rule.find?_members_transpositionCost fun x hx =>
        have hexact := hcosts x (by simp [costs, Option.mem_def.mp hx])
        ⟨reads_float hexact, float_ne_null hexact⟩
    have hindexes := list_eq "noInsertionIndexes" rule.noInsertionIndexes hdepth
      (rule.find?_members_noInsertionIndexes.trans (find?_listMember _ _).symm) reads_word64
    have hedit := absent_eq "edit" rule.edit hdepth rule.find?_members_edit fun x hx =>
      ⟨NamedEdit.reads (hcosts _ (cost_mem_costs hx)), x.toJson_ne_null⟩
    simp only [fieldNames, List.map_cons, List.map_nil, hrhs, htext, hsemantic, hfeatures, hinsertion,
      htransposition, hindexes, hedit, Option.bind_eq_bind, Option.bind_some]
    rfl

end NamedRule

/-! ### Documents -/

theorem SemanticTraits.plain (s : SemanticTraits) : s.toJson.Plain :=
  .ofMembers (.cons (plain_nat _) (.cons (plain_nat _) (.cons (plain_float _)
    (.cons (.bool _) (.cons (.bool _) plainMembers_nil)))))

namespace Document

/-- All costs that stand in a document. -/
def costs (g : Document) : List Float :=
  g.semantics.values.map (·.cost) ++ g.rules.flatMap NamedRule.costs

theorem plain_mapJson {α : Type} {f : α → Json} (hf : ∀ x, (f x).Plain) (m : SortedMap α) :
    (mapJson f m).Plain := by
  refine .record fun e he => ?_
  obtain ⟨x, -, rfl⟩ := List.mem_map.mp he
  exact hf x.2

theorem plain_contentMembers (g : Document) : PlainMembers g.contentMembers :=
  .cons (plain_mapJson (fun _ => .array (plain_of_mem_map NamedRule.plain)) _)
    (.cons (plain_mapJson SemanticTraits.plain _) (.cons (plain_mapJson plain_texts _)
      plainMembers_nil))

theorem plain (g : Document) : g.toJson.Plain :=
  .ofMembers (PlainMembers.append (.cons (plain_nat _) (.cons (.text _) (.cons (.text _)
    (.cons (.text _) plainMembers_nil)))) g.plain_contentMembers)

theorem mem_costs_iff {g : Document} {x : Float} :
    x ∈ g.costs ↔ (∃ e ∈ g.semantics.entries, e.2.cost = x) ∨
      ∃ e ∈ g.ruleSets.entries, ∃ rule ∈ e.2, x ∈ rule.costs := by
  simp only [costs, rules, SortedMap.values, List.mem_append, List.mem_map, List.mem_flatMap,
    List.mem_flatten, exists_exists_and_eq_and]
  refine or_congr Iff.rfl ⟨?_, ?_⟩
  · rintro ⟨rule, ⟨e, he, hrule⟩, hx⟩
    exact ⟨e, he, rule, hrule, hx⟩
  · rintro ⟨e, he, rule, hrule, hx⟩
    exact ⟨rule, ⟨e, he, hrule⟩, hx⟩

/-- A document is decoded from its written form as it is, if its costs read back. -/
theorem reads {g : Document} (hcosts : ∀ x ∈ g.costs, Exact x) :
    Document.decode.Reads g.toJson g := by
  refine reads_record (List.Sublist.refl _) (by decide) fun levels hdepth => ?_
  have hrules : ∀ e ∈ g.ruleSets.entries,
      (list NamedRule.decode).Reads (.array (e.2.map NamedRule.toJson)) e.2 := fun e he =>
    reads_list fun rule hrule => NamedRule.reads fun x hx =>
      hcosts x (mem_costs_iff.mpr (.inr ⟨e, he, rule, hrule, hx⟩))
  have hsemantics : ∀ e ∈ g.semantics.entries, SemanticTraits.decode.Reads e.2.toJson e.2 :=
    fun e he => SemanticTraits.reads (hcosts _ (mem_costs_iff.mpr (.inl ⟨e, he, rfl⟩)))
  have hschema := present_eq "schema" hdepth (by simp [Keyed.find?_cons]) (reads_word32 g.schema)
  have hkind := present_eq "grammarKind" hdepth (by simp [Keyed.find?_cons])
    (reads_text g.grammarKind)
  have hstart := present_eq "startSymbol" hdepth (by simp [Keyed.find?_cons])
    (reads_text g.startSymbol)
  have hdigest := present_eq "digest" hdepth (by simp [Keyed.find?_cons]) (reads_text g.digest)
  have hsets := present_eq "ruleSets" hdepth (by simp [contentMembers, mapJson, Keyed.find?_cons])
    (reads_map (f := fun rules : List NamedRule => .array (rules.map NamedRule.toJson)) hrules)
  have htraits := present_eq "semantics" hdepth (by simp [contentMembers, mapJson, Keyed.find?_cons])
    (reads_map (f := SemanticTraits.toJson) hsemantics)
  have hcategories := present_eq "entityCategories" hdepth
    (by simp [contentMembers, mapJson, Keyed.find?_cons])
    (reads_map (f := Json.texts) fun e (_ : e ∈ g.entityCategories.entries) => reads_texts e.2)
  simp only [fieldNames, List.map_cons, List.map_nil, hschema, hkind, hstart, hdigest, hsets, htraits,
    hcategories, Option.bind_eq_bind, Option.bind_some]
  rfl

end Document

end QueryGrammar
