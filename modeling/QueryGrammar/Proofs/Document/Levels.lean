import QueryGrammar.Document.Reader
import QueryGrammar.Proofs.Document.Returned
import QueryGrammar.Proofs.Json.Finite
import QueryGrammar.Proofs.Json.Pretty
/-!
What a reader has taken in fits its limits again: the written form of a part nests no deeper than
the levels in which the part was decoded, and all costs that are decoded are finite.
-/
namespace QueryGrammar

open Json Decoder

theorem Decoder.yields_float : float.Yields fun _ x => x.isFinite = true := by
  intro levels j x hx
  unfold float at hx
  split at hx
  · exact Numeral.isFinite_of_toFloat? hx
  · cases hx

/-! ### Parts without names -/

theorem Features.depth_toJson_le (f : Features) : f.toJson.depth ≤ 1 := by
  refine depth_record_le_iff.mpr ⟨0, rfl, ?_⟩
  simp only [List.forall_mem_append, forall_optionalMember]
  exact ⟨⟨fun _ _ => le_rfl, fun _ _ => le_rfl⟩, fun _ _ => le_rfl⟩

theorem Features.settles : Features.decode.Settles Features.toJson :=
  yields_record fun n _ f _ => f.depth_toJson_le.trans (Nat.le_add_left 1 n)

theorem Inflections.depth_toJson_le (forms : Inflections) : forms.toJson.depth ≤ 1 := by
  refine depth_record_le_iff.mpr ⟨0, rfl, ?_⟩
  simp only [List.forall_mem_append, forall_optionalMember]
  exact ⟨⟨⟨⟨⟨fun _ _ => le_rfl, fun _ _ => le_rfl⟩, fun _ _ => le_rfl⟩, fun _ _ => le_rfl⟩,
    fun _ _ => le_rfl⟩, fun _ _ => le_rfl⟩

theorem Inflections.settles : Inflections.decode.Settles Inflections.toJson :=
  yields_record fun n _ forms _ => forms.depth_toJson_le.trans (Nat.le_add_left 1 n)

theorem DisplayText.settles : DisplayText.decode.Settles DisplayText.toJson := by
  refine yields_tagged (fun levels tag a ha => ?_) fun n tag j a ha => ?_
  · split at ha
    · obtain rfl := Option.some.inj ha
      exact Nat.zero_le _
    · obtain rfl := Option.some.inj ha
      exact Nat.zero_le _
    · cases ha
  · split at ha
    · obtain rfl := Option.some.inj ha
      exact Nat.zero_le _
    · obtain rfl := Option.some.inj ha
      exact Nat.zero_le _
    · obtain ⟨s, -, rfl⟩ := Option.map_eq_some_iff.mp ha
      exact depth_tagged_le (Nat.zero_le _)
    · obtain ⟨forms, hforms, rfl⟩ := Option.map_eq_some_iff.mp ha
      exact depth_tagged_le (Inflections.settles _ _ _ hforms)
    · cases ha

theorem Segment.settles : Segment.decode.Settles Segment.toJson := by
  intro levels j segment h
  unfold Segment.decode at h
  split at h
  · split at h
    · obtain ⟨s, -, rfl⟩ := Option.map_eq_some_iff.mp h
      exact Nat.zero_le _
    · obtain ⟨forms, hforms, rfl⟩ := Option.map_eq_some_iff.mp h
      exact Inflections.settles _ _ _ hforms
  · cases h

/-! ### Trees -/

theorem Provenance.toJsonList_eq_map (ts : List Provenance) :
    Provenance.toJsonList ts = ts.map Provenance.toJson := by
  induction ts with
  | nil => rfl
  | cons t ts ih => rw [Provenance.toJsonList, ih, List.map_cons]

theorem NamedNode.toJsonList_eq_map (ns : List NamedNode) :
    NamedNode.toJsonList ns = ns.map NamedNode.toJson := by
  induction ns with
  | nil => rfl
  | cons n ns ih => rw [NamedNode.toJsonList, ih, List.map_cons]

theorem Provenance.decodeList_eq : Provenance.decodeList = list Provenance.decode := by
  funext levels j
  cases levels <;> cases j <;> rfl

theorem NamedNode.decodeList_eq : NamedNode.decodeList = list NamedNode.decode := by
  funext levels j
  cases levels <;> cases j <;> rfl

theorem Provenance.settles : Decoder.Settles Provenance.decode Provenance.toJson := by
  intro levels
  -- Children are decoded two levels down: one for the record, one for their list.
  induction levels using Nat.strong_induction_on with
  | _ levels ih =>
    intro j t ht
    cases levels with
    | zero => cases ht
    | succ n =>
      rw [Provenance.decode] at ht
      obtain ⟨members, -, ht⟩ := Option.bind_eq_some_iff.mp ht
      split at ht
      next symbol segments children =>
        obtain ⟨name, -, ht⟩ := Option.bind_eq_some_iff.mp ht
        obtain ⟨text, htext, ht⟩ := Option.bind_eq_some_iff.mp ht
        have hchildren : ∃ ts, t = .mk name text ts ∧
            (Provenance.toJsonList ts ≠ [] → (Json.array (Provenance.toJsonList ts)).depth ≤ n) := by
          cases children with
          | none =>
            obtain rfl := Option.some.inj ht
            exact ⟨[], rfl, fun h => absurd rfl h⟩
          | some children =>
            obtain ⟨ts, hts, ht⟩ := Option.bind_eq_some_iff.mp ht
            obtain rfl := Option.some.inj ht
            rw [Provenance.decodeList_eq] at hts
            refine ⟨ts, rfl, fun _ => ?_⟩
            rw [Provenance.toJsonList_eq_map]
            exact Decoder.depth_list_le (fun k hk => ih k (by omega)) hts
        obtain ⟨ts, rfl, hts⟩ := hchildren
        rw [Provenance.toJson]
        refine depth_record_le_iff.mpr ⟨n, rfl, ?_⟩
        simp only [List.cons_append, List.forall_mem_cons, List.forall_mem_append, forall_listMember]
        exact ⟨Nat.zero_le _, Segment.settles.of_list htext, hts⟩
      next => cases ht

theorem NamedNode.settles : Decoder.Settles NamedNode.decode NamedNode.toJson := by
  intro levels
  induction levels using Nat.strong_induction_on with
  | _ levels ih =>
    intro j node hnode
    cases levels with
    | zero => cases hnode
    | succ n =>
      rw [NamedNode.decode] at hnode
      obtain ⟨members, -, hnode⟩ := Option.bind_eq_some_iff.mp hnode
      split at hnode
      next semantic children =>
        obtain ⟨name, -, hnode⟩ := Option.bind_eq_some_iff.mp hnode
        have hchildren : ∃ ns, node = .mk name ns ∧
            (NamedNode.toJsonList ns ≠ [] → (Json.array (NamedNode.toJsonList ns)).depth ≤ n) := by
          cases children with
          | none =>
            obtain rfl := Option.some.inj hnode
            exact ⟨[], rfl, fun h => absurd rfl h⟩
          | some children =>
            obtain ⟨ns, hns, hnode⟩ := Option.bind_eq_some_iff.mp hnode
            obtain rfl := Option.some.inj hnode
            rw [NamedNode.decodeList_eq] at hns
            refine ⟨ns, rfl, fun _ => ?_⟩
            rw [NamedNode.toJsonList_eq_map]
            exact Decoder.depth_list_le (fun k hk => ih k (by omega)) hns
        obtain ⟨ns, rfl, hns⟩ := hchildren
        rw [NamedNode.toJson]
        refine depth_record_le_iff.mpr ⟨n, rfl, ?_⟩
        simp only [List.forall_mem_cons, forall_listMember]
        exact ⟨Nat.zero_le _, hns⟩
      next => cases hnode

theorem NamedNode.settles_list :
    Decoder.Settles NamedNode.decodeList fun ns => .array (NamedNode.toJsonList ns) := by
  intro levels j ns hns
  rw [NamedNode.decodeList_eq] at hns
  change (Json.array (NamedNode.toJsonList ns)).depth ≤ levels
  rw [NamedNode.toJsonList_eq_map]
  exact Decoder.depth_list_le (fun n _ => NamedNode.settles n) hns

/-! ### Rows and definitions -/

theorem SemanticTraits.yields : SemanticTraits.decode.Yields fun levels s =>
    s.toJson.depth ≤ levels ∧ s.cost.isFinite = true := by
  refine yields_record fun n members s hs => ?_
  split at hs
  next =>
    obtain ⟨_, -, hs⟩ := Option.bind_eq_some_iff.mp hs
    obtain ⟨_, -, hs⟩ := Option.bind_eq_some_iff.mp hs
    obtain ⟨cost, hcost, hs⟩ := Option.bind_eq_some_iff.mp hs
    obtain ⟨_, -, hs⟩ := Option.bind_eq_some_iff.mp hs
    obtain ⟨_, -, hs⟩ := Option.bind_eq_some_iff.mp hs
    obtain rfl := Option.some.inj hs
    refine ⟨depth_record_le_iff.mpr ⟨n, rfl, ?_⟩, yields_float.of_present hcost⟩
    simp [depth_float, Json.nat, depth]
  next => cases hs

theorem NamedRhs.settles : NamedRhs.decode.Settles NamedRhs.toJson := by
  refine yields_tagged (fun _ _ _ ha => nomatch ha) fun n tag j rhs h => ?_
  split at h
  · obtain ⟨names, hnames, rfl⟩ := Option.map_eq_some_iff.mp h
    exact depth_tagged_le (settles_texts n j names hnames)
  · obtain ⟨term, -, rfl⟩ := Option.map_eq_some_iff.mp h
    exact depth_tagged_le (Nat.zero_le _)
  · obtain ⟨names, hnames, rfl⟩ := Option.map_eq_some_iff.mp h
    exact depth_tagged_le (settles_texts n j names hnames)
  · obtain ⟨category, -, rfl⟩ := Option.map_eq_some_iff.mp h
    exact depth_tagged_le (Nat.zero_le _)
  · cases h

theorem NamedAttachment.settles : NamedAttachment.decode.Settles NamedAttachment.toJson := by
  refine yields_tagged (fun _ _ _ ha => nomatch ha) fun n tag j a h => ?_
  split at h
  · obtain ⟨nodes, hnodes, rfl⟩ := Option.map_eq_some_iff.mp h
    exact depth_tagged_le (NamedNode.settles_list n j nodes hnodes)
  · obtain ⟨names, hnames, rfl⟩ := Option.map_eq_some_iff.mp h
    exact depth_tagged_le (settles_texts n j names hnames)
  · cases h

theorem NamedInsertion.yields : NamedInsertion.decode.Yields fun levels i =>
    i.toJson.depth ≤ levels ∧ i.cost.isFinite = true := by
  refine yields_record fun n members i hi => ?_
  split at hi
  next =>
    obtain ⟨cost, hcost, hi⟩ := Option.bind_eq_some_iff.mp hi
    obtain ⟨position, -, hi⟩ := Option.bind_eq_some_iff.mp hi
    obtain ⟨text, htext, hi⟩ := Option.bind_eq_some_iff.mp hi
    obtain ⟨semantic, hsemantic, hi⟩ := Option.bind_eq_some_iff.mp hi
    obtain ⟨tree, htree, hi⟩ := Option.bind_eq_some_iff.mp hi
    obtain rfl := Option.some.inj hi
    refine ⟨depth_record_le_iff.mpr ⟨n, rfl, ?_⟩, yields_float.of_present hcost⟩
    simp only [List.cons_append, List.nil_append, List.forall_mem_cons, List.forall_mem_append,
      forall_optionalMember, forall_listMember, depth_float]
    exact ⟨Nat.zero_le _, Nat.zero_le _, ⟨⟨Segment.settles.of_list htext,
      NamedNode.settles_list.of_absent hsemantic⟩, Provenance.settles.of_absent htree⟩⟩
  next => cases hi

theorem NamedEdit.yields : NamedEdit.decode.Yields fun levels edit =>
    edit.toJson.depth ≤ levels ∧ edit.cost.isFinite = true := by
  refine yields_tagged (fun _ _ _ ha => nomatch ha) fun n tag j edit h => ?_
  split at h
  · obtain ⟨i, hi, rfl⟩ := Option.map_eq_some_iff.mp h
    obtain ⟨hdepth, hcost⟩ := NamedInsertion.yields n j i hi
    exact ⟨depth_tagged_le hdepth, hcost⟩
  · refine yields_record (P := fun levels edit =>
      edit.toJson.depth ≤ levels + 1 ∧ edit.cost.isFinite = true) (fun n members edit h => ?_)
      n j edit h
    split at h
    · obtain ⟨cost, hcost, rfl⟩ := Option.map_eq_some_iff.mp h
      have hdepth : (Json.float cost).depth ≤ n := (depth_float cost).trans_le (Nat.zero_le n)
      exact ⟨depth_tagged_le (depth_tagged_le hdepth), yields_float.of_present hcost⟩
    · cases h
  · cases h

namespace NamedRule

theorem yields : NamedRule.decode.Yields fun levels rule =>
    rule.toJson.depth ≤ levels ∧ ∀ x ∈ rule.costs, x.isFinite = true := by
  refine yields_record fun n members rule h => ?_
  split at h
  next =>
    obtain ⟨rhs, hrhs, h⟩ := Option.bind_eq_some_iff.mp h
    obtain ⟨text, htext, h⟩ := Option.bind_eq_some_iff.mp h
    obtain ⟨semantic, hsemantic, h⟩ := Option.bind_eq_some_iff.mp h
    obtain ⟨features, hfeatures, h⟩ := Option.bind_eq_some_iff.mp h
    obtain ⟨insertionCost, hinsertion, h⟩ := Option.bind_eq_some_iff.mp h
    obtain ⟨transpositionCost, htransposition, h⟩ := Option.bind_eq_some_iff.mp h
    obtain ⟨noInsertion, hindexes, h⟩ := Option.bind_eq_some_iff.mp h
    obtain ⟨edit, hedit, h⟩ := Option.bind_eq_some_iff.mp h
    obtain rfl := Option.some.inj h
    have hedit := NamedEdit.yields.of_absent hedit
    have hindex : word64.Settles fun i => Json.nat i.toNat := fun _ _ _ _ => Nat.zero_le _
    constructor
    · refine depth_record_le_iff.mpr ⟨n, rfl, ?_⟩
      simp only [List.cons_append, List.forall_mem_cons, List.forall_mem_append,
        forall_optionalMember, forall_listMember, depth_float]
      refine ⟨NamedRhs.settles.of_present hrhs, ⟨⟨⟨⟨⟨⟨DisplayText.settles.of_absent htext,
        NamedAttachment.settles.of_absent hsemantic⟩, ?_⟩, fun _ _ => Nat.zero_le n⟩,
        fun _ _ => Nat.zero_le n⟩, hindex.of_list hindexes⟩, fun edit he => (hedit edit he).1⟩⟩
      rcases Features.settles.of_orElse hfeatures with rfl | hdepth
      · exact nofun
      · split
        · exact nofun
        · exact List.forall_mem_singleton.mpr hdepth
    · intro x hx
      simp only [costs, List.mem_append, Option.mem_toList, Option.map_eq_some_iff] at hx
      rcases hx with (hx | hx) | ⟨edit, he, rfl⟩
      · exact yields_float.of_absent htransposition x hx
      · exact yields_float.of_absent hinsertion x hx
      · cases edit <;> exact (hedit _ he).2
  next => cases h

end NamedRule

/-! ### Documents -/

namespace Document

theorem depth_mapJson_le_iff {α : Type} {f : α → Json} {m : SortedMap α} {levels : Nat} :
    (mapJson f m).depth ≤ levels ↔ ∃ n, levels = n + 1 ∧ ∀ e ∈ m.entries, (f e.2).depth ≤ n := by
  rw [mapJson, depth_record_le_iff]
  simp only [List.forall_mem_map]

theorem yields : Document.decode.Yields fun levels g =>
    g.toJson.depth ≤ levels ∧ ∀ x ∈ g.costs, x.isFinite = true := by
  refine yields_record fun n members g h => ?_
  split at h
  next =>
    obtain ⟨_, -, h⟩ := Option.bind_eq_some_iff.mp h
    obtain ⟨_, -, h⟩ := Option.bind_eq_some_iff.mp h
    obtain ⟨_, -, h⟩ := Option.bind_eq_some_iff.mp h
    obtain ⟨_, -, h⟩ := Option.bind_eq_some_iff.mp h
    obtain ⟨ruleSets, hrules, h⟩ := Option.bind_eq_some_iff.mp h
    obtain ⟨semantics, hsemantics, h⟩ := Option.bind_eq_some_iff.mp h
    obtain ⟨categories, hcategories, h⟩ := Option.bind_eq_some_iff.mp h
    obtain rfl := Option.some.inj h
    obtain ⟨k, rfl, hrows⟩ := NamedRule.yields.list.map.of_present hrules
    obtain ⟨l, hl, htraits⟩ := SemanticTraits.yields.map.of_present hsemantics
    constructor
    · refine depth_record_le_iff.mpr ⟨_, rfl, ?_⟩
      simp only [contentMembers, List.cons_append, List.nil_append, List.forall_mem_cons]
      refine ⟨Nat.zero_le _, Nat.zero_le _, Nat.zero_le _, Nat.zero_le _, ?_, ?_, ?_,
        List.forall_mem_nil _⟩
      · refine depth_mapJson_le_iff.mpr ⟨k, rfl, fun e he => depth_map_le_iff.mpr ?_⟩
        obtain ⟨i, rfl, hrow⟩ := hrows e he
        exact ⟨i, rfl, fun rule hrule => (hrow rule hrule).1⟩
      · exact depth_mapJson_le_iff.mpr ⟨l, hl, fun e he => (htraits e he).1⟩
      · exact depth_mapJson_le_iff.mpr (settles_texts.map.of_present hcategories)
    · intro x hx
      rcases mem_costs_iff.mp hx with ⟨e, he, rfl⟩ | ⟨e, he, rule, hrule, hx⟩
      · exact (htraits e he).2
      · obtain ⟨i, -, hrow⟩ := hrows e he
        exact (hrow rule hrule).2 x hx
  next => cases h

/-! ### Reading again -/

theorem ofText?_toPretty_eq (g : Document) : ofText? g.toPretty = decode maxLevels g.toJson := by
  rw [ofText?, toPretty, Json.ofText?_toPretty g.plain]
  rfl

theorem ofText?_toPretty {g : Document} (hcosts : ∀ x ∈ g.costs, Exact x)
    (hdepth : g.toJson.depth ≤ maxLevels) : ofText? g.toPretty = some g := by
  rw [ofText?_toPretty_eq]
  exact reads hcosts maxLevels hdepth

theorem limits_of_ofText? {text : String} {g : Document} (h : ofText? text = some g) :
    g.toJson.depth ≤ maxLevels ∧ ∀ x ∈ g.costs, x.isFinite = true := by
  obtain ⟨j, -, hj⟩ := Option.bind_eq_some_iff.mp h
  exact yields maxLevels j g hj

/-- A document whose costs read back comes back from its written text, if and only if it nests no
deeper than a reader goes; and what has been read once can always be read again, since only finite
costs are read and nothing is written deeper than it was. -/
theorem read_toPretty :
    (∀ g : Document,
      (∀ x ∈ g.costs, x.isFinite = true ∧ (Numeral.ofFinite x).toFloat? = some x) →
        (ofText? g.toPretty = some g ↔ g.toJson.depth ≤ maxLevels)) ∧
    ∀ (text : String) (g : Document), ofText? text = some g →
      (∀ x ∈ g.costs, (Numeral.ofFinite x).toFloat? = some x) → ofText? g.toPretty = some g := by
  constructor
  · intro g hcosts
    exact ⟨fun h => (limits_of_ofText? h).1, ofText?_toPretty hcosts⟩
  · intro text g h hcosts
    obtain ⟨hdepth, hfinite⟩ := limits_of_ofText? h
    exact ofText?_toPretty (fun x hx => ⟨hfinite x hx, hcosts x hx⟩) hdepth

/-- Parts of many shapes: a table without forms, a tree, a text that is only shown as it is. -/
def varied : Document where
  schema := 1
  grammarKind := currentKind
  startSymbol := "start"
  digest := "\"\\\u0001é"
  ruleSets := .ofList [("start",
    [{ rhs := .terminal "me"
       text := some .verbatim
       semantic := some (.fixed [])
       edit := some (.insertion
        { cost := 0.5
          position := .before
          text := [.inflected {}, .literal "me"]
          semantic := some [.mk "f" [.mk "me" []]]
          tree := some (.mk "name" [.literal ""] [.mk "word" [] []]) }) },
     { rhs := .symbols ["start", "start"]
       transpositionCost := some 1.5
       noInsertionIndexes := [0, 1] }])]
  semantics := .ofList [("f", ⟨1, 2, 0.5, false, true⟩)]
  entityCategories := .ofList [("name", [])]

/-- A text with an escape, an exponent, a field that is null and one that is not known. -/
def otherText : String :=
  "\x7b\"schema\": 1, \"grammarKind\": \"\", \"startSymbol\": \"\\u00e9\", \"digest\": \"\",
    \"ruleSets\": \x7b\"start\": [\x7b\"rhs\": \x7b\"terminal\": \"me\"\x7d, \"insertionCost\": 5e-1,
    \"edit\": null, \"more\": []\x7d]\x7d, \"semantics\": \x7b\x7d, \"entityCategories\": \x7b\x7d\x7d"

theorem read_toPretty_varied : ofText? varied.toPretty = some varied ∧
    ∃ g, ofText? otherText = some g ∧ g.costs = [0.5] ∧ ofText? g.toPretty = some g := by
  have hexact : ∀ x ∈ varied.costs,
      x.isFinite = true ∧ (Numeral.ofFinite x).toFloat? = some x := by
    decide +kernel
  refine ⟨(read_toPretty.1 varied hexact).mpr (by decide +kernel), ?_⟩
  have hcosts : (ofText? otherText).map costs = some [0.5] := by decide +kernel
  obtain ⟨g, hg, hcosts⟩ := Option.map_eq_some_iff.mp hcosts
  have hhalf : ∀ x ∈ [(0.5 : Float)], (Numeral.ofFinite x).toFloat? = some x := by decide +kernel
  exact ⟨g, hg, hcosts, read_toPretty.2 otherText g hg (hcosts ▸ hhalf)⟩

end Document

end QueryGrammar
