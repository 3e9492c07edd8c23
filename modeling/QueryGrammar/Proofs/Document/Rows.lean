import QueryGrammar.Document.Written
import QueryGrammar.Proofs.Json.Digits
import QueryGrammar.Proofs.Order.Keyed
/-!
Rows of a document are told apart by their written forms as far as a derivation can: rows of one
form expand alike, attach the same semantics and are edits together. So the row that stands for
several of one form derives what each of them does.
-/
namespace QueryGrammar

open Json

/-! ### Written parts are plain -/

mutual

theorem NamedNode.plain : (n : NamedNode) → n.toJson.Plain
  | .mk semantic children => by
    rw [NamedNode.toJson]
    exact .ofMembers (.cons (.text _) (plainMembers_list (NamedNode.plain_list children)))

theorem NamedNode.plain_list : (ns : List NamedNode) → ∀ j ∈ NamedNode.toJsonList ns, j.Plain
  | [] => by simp [NamedNode.toJsonList]
  | n :: ns => by
    intro j hj
    rw [NamedNode.toJsonList] at hj
    rcases List.mem_cons.mp hj with rfl | hj
    · exact NamedNode.plain n
    · exact NamedNode.plain_list ns j hj

end

theorem plain_of_map_some {α : Type} {f : α → Json} (hf : ∀ x, (f x).Plain) {value : Option α}
    (j : Json) (h : value.map f = some j) : j.Plain := by
  obtain ⟨x, -, rfl⟩ := Option.map_eq_some_iff.mp h
  exact hf x

theorem plain_of_mem_map {α : Type} {f : α → Json} (hf : ∀ x, (f x).Plain) {items : List α}
    (j : Json) (h : j ∈ items.map f) : j.Plain := by
  obtain ⟨x, -, rfl⟩ := List.mem_map.mp h
  exact hf x

theorem Inflections.plain (forms : Inflections) : forms.toJson.Plain := by
  have hform : ∀ (name : String) (form : Option String),
      PlainMembers (optionalMember name (form.map .text)) :=
    fun name form => plainMembers_optional (plain_of_map_some .text)
  exact .ofMembers ((((((hform _ _).append (hform _ _)).append (hform _ _)).append
    (hform _ _)).append (hform _ _)).append (hform _ _))

theorem DisplayText.plain : (text : DisplayText) → text.toJson.Plain
  | .verbatim => .text _
  | .replace _ => .ofMembers (.cons (.text _) plainMembers_nil)
  | .inflected forms => .ofMembers (.cons forms.plain plainMembers_nil)
  | .silent => .text _

theorem Segment.plain : (segment : Segment) → segment.toJson.Plain
  | .literal _ => .text _
  | .inflected forms => forms.plain

mutual

theorem Provenance.plain : (t : Provenance) → t.toJson.Plain
  | .mk symbol text children => by
    rw [Provenance.toJson]
    exact .ofMembers ((PlainMembers.cons (.text _)
      (plainMembers_list (plain_of_mem_map Segment.plain))).append
      (plainMembers_list (Provenance.plain_list children)))

theorem Provenance.plain_list : (ts : List Provenance) → ∀ j ∈ Provenance.toJsonList ts, j.Plain
  | [] => by simp [Provenance.toJsonList]
  | t :: ts => by
    intro j hj
    rw [Provenance.toJsonList] at hj
    rcases List.mem_cons.mp hj with rfl | hj
    · exact Provenance.plain t
    · exact Provenance.plain_list ts j hj

end

theorem Features.plain (f : Features) : f.toJson.Plain := by
  refine .ofMembers ((PlainMembers.append ?_ ?_).append ?_) <;>
    exact plainMembers_optional (plain_of_map_some fun _ => .text _)

theorem NamedRhs.plain : (rhs : NamedRhs) → rhs.toJson.Plain
  | .symbols _ => .ofMembers (.cons (plain_texts _) plainMembers_nil)
  | .terminal _ => .ofMembers (.cons (.text _) plainMembers_nil)
  | .termSequence _ => .ofMembers (.cons (plain_texts _) plainMembers_nil)
  | .placeholder _ => .ofMembers (.cons (.text _) plainMembers_nil)

theorem NamedAttachment.plain : (a : NamedAttachment) → a.toJson.Plain
  | .fixed nodes => .ofMembers (.cons (.array (NamedNode.plain_list nodes)) plainMembers_nil)
  | .deferred _ => .ofMembers (.cons (plain_texts _) plainMembers_nil)

theorem NamedInsertion.plain (i : NamedInsertion) : i.toJson.Plain := by
  refine .ofMembers (((PlainMembers.append ?_ ?_).append ?_).append ?_)
  · exact .cons (plain_float _) (.cons (.text _) plainMembers_nil)
  · exact plainMembers_list (plain_of_mem_map Segment.plain)
  · exact plainMembers_optional (plain_of_map_some fun ns => .array (NamedNode.plain_list ns))
  · exact plainMembers_optional (plain_of_map_some Provenance.plain)

theorem NamedEdit.plain : (e : NamedEdit) → e.toJson.Plain
  | .insertion i => .ofMembers (.cons i.plain plainMembers_nil)
  | .transposition _ =>
    .ofMembers (.cons (.ofMembers (.cons (plain_float _) plainMembers_nil)) plainMembers_nil)

theorem NamedRule.plain (rule : NamedRule) : rule.toJson.Plain := by
  refine .ofMembers ?_
  refine (((((((PlainMembers.cons rule.rhs.plain ?_).append ?_).append ?_).append ?_).append
    ?_).append ?_).append ?_)
  · exact plainMembers_optional (plain_of_map_some DisplayText.plain)
  · exact plainMembers_optional (plain_of_map_some NamedAttachment.plain)
  · split
    · exact plainMembers_nil
    · exact .cons rule.features.plain plainMembers_nil
  · exact plainMembers_optional (plain_of_map_some plain_float)
  · exact plainMembers_optional (plain_of_map_some plain_float)
  · exact plainMembers_list (plain_of_mem_map fun i : UInt64 => plain_nat i.toNat)
  · exact plainMembers_optional (plain_of_map_some NamedEdit.plain)

/-! ### Parts that are told apart -/

mutual

theorem NamedNode.toJson_inj : (n m : NamedNode) → n.toJson = m.toJson → n = m
  | .mk s ns, .mk t ms, h => by
    rw [NamedNode.toJson, NamedNode.toJson] at h
    obtain ⟨hhead, hchildren⟩ := List.cons.inj (record_inj h)
    have hname : s = t := Option.some.inj (Json.string.inj (Prod.mk.inj hhead).2)
    have hlist : NamedNode.toJsonList ns = NamedNode.toJsonList ms := by
      cases ns <;> cases ms <;>
        simp_all [Json.listMember, NamedNode.toJsonList]
    rw [hname, NamedNode.toJsonList_inj ns ms hlist]

theorem NamedNode.toJsonList_inj : (ns ms : List NamedNode) →
    NamedNode.toJsonList ns = NamedNode.toJsonList ms → ns = ms
  | [], [], _ => rfl
  | [], _ :: _, h => by simp [NamedNode.toJsonList] at h
  | _ :: _, [], h => by simp [NamedNode.toJsonList] at h
  | n :: ns, m :: ms, h => by
    rw [NamedNode.toJsonList, NamedNode.toJsonList] at h
    obtain ⟨hhead, htail⟩ := List.cons.inj h
    rw [NamedNode.toJson_inj n m hhead, NamedNode.toJsonList_inj ns ms htail]

end

theorem NamedRhs.toJson_injective : Function.Injective NamedRhs.toJson := by
  intro a b h
  cases a <;> cases b <;> have hm := record_inj h <;> simp at hm
  · rw [texts_inj hm]
  · rw [show _ = _ from Option.some.inj (Json.string.inj hm)]
  · rw [texts_inj hm]
  · rw [show _ = _ from Option.some.inj (Json.string.inj hm)]

theorem NamedAttachment.toJson_injective : Function.Injective NamedAttachment.toJson := by
  intro a b h
  cases a <;> cases b <;> have hm := record_inj h <;> simp at hm
  · rw [NamedNode.toJsonList_inj _ _ hm]
  · rw [texts_inj hm]

namespace NamedRule

/-- What a derivation sees of a row. -/
structure Alike (a b : NamedRule) : Prop where
  rhs : a.rhs = b.rhs
  semantic : a.semantic = b.semantic
  edit : a.edit.isSome = b.edit.isSome

/-- The members that a row is written as. -/
def members (rule : NamedRule) : List (String × Json) :=
  ("rhs", rule.rhs.toJson) ::
    Json.optionalMember "text" (rule.text.map DisplayText.toJson) ++
    Json.optionalMember "semantic" (rule.semantic.map NamedAttachment.toJson) ++
    (if rule.features.isEmpty then [] else [("features", rule.features.toJson)]) ++
    Json.optionalMember "insertionCost" (rule.insertionCost.map Json.float) ++
    Json.optionalMember "transpositionCost" (rule.transpositionCost.map Json.float) ++
    Json.listMember "noInsertionIndexes"
      (rule.noInsertionIndexes.map fun i => Json.nat i.toNat) ++
    Json.optionalMember "edit" (rule.edit.map NamedEdit.toJson)

theorem find?_features (rule : NamedRule) {key : String} (h : "features" ≠ key) :
    Keyed.find? key (if rule.features.isEmpty then []
      else [("features", rule.features.toJson)]) = none := by
  split <;> simp [Keyed.find?, h]

theorem find?_members_semantic (rule : NamedRule) :
    Keyed.find? "semantic" rule.members = rule.semantic.map NamedAttachment.toJson := by
  simp [members, find?_append, find?_optionalMember, find?_listMember_of_ne, find?_features,
    Keyed.find?_cons]

theorem find?_members_edit (rule : NamedRule) :
    Keyed.find? "edit" rule.members = rule.edit.map NamedEdit.toJson := by
  simp [members, find?_append, find?_optionalMember, find?_listMember_of_ne, find?_features,
    Keyed.find?_cons]

theorem toJson_eq_of_sortKey_eq {a b : NamedRule} (h : a.sortKey = b.sortKey) :
    a.toJson = b.toJson := toCompact_injective a.plain b.plain h

theorem editJson_eq_of_sortKey_eq {a b : NamedRule} (h : a.sortKey = b.sortKey) :
    a.edit.map NamedEdit.toJson = b.edit.map NamedEdit.toJson := by
  have hmembers : a.members = b.members := record_inj (toJson_eq_of_sortKey_eq h)
  rw [← find?_members_edit, hmembers, find?_members_edit]

theorem alike_of_sortKey_eq {a b : NamedRule} (h : a.sortKey = b.sortKey) : a.Alike b := by
  have hmembers : a.members = b.members := record_inj (toJson_eq_of_sortKey_eq h)
  constructor
  · have hhead := (List.cons.inj hmembers).1
    exact NamedRhs.toJson_injective (Prod.mk.inj hhead).2
  · apply Option.map_injective NamedAttachment.toJson_injective
    rw [← find?_members_semantic, hmembers, find?_members_semantic]
  · simpa using congrArg Option.isSome (editJson_eq_of_sortKey_eq h)

/-! ### Canonical rows -/

variable {rules : List NamedRule} {rule : NamedRule}

theorem mem_of_mem_canonical (h : rule ∈ canonical rules) : rule ∈ rules :=
  Keyed.mem_of_mem_distinct h

/-- Every row is stood for by one that is alike. -/
theorem exists_alike_of_mem (h : rule ∈ rules) : ∃ kept ∈ canonical rules, kept.Alike rule := by
  obtain ⟨kept, hkept, hkey⟩ := Keyed.exists_mem_distinct sortKey h
  exact ⟨kept, hkept, alike_of_sortKey_eq hkey⟩

/-- The forms that rows are written in settle how they are written together. -/
theorem toJson_canonical_eq {rules others : List NamedRule}
    (h : ∀ key, key ∈ rules.map sortKey ↔ key ∈ others.map sortKey) :
    (canonical rules).map toJson = (canonical others).map toJson := by
  have hkeys : ∀ (rows : List NamedRule) key, key ∈ (canonical rows).map sortKey ↔
      key ∈ rows.map sortKey := by
    intro rows key
    simp only [List.mem_map]
    constructor
    · rintro ⟨row, hrow, rfl⟩
      exact ⟨row, mem_of_mem_canonical hrow, rfl⟩
    · rintro ⟨row, hrow, rfl⟩
      exact Keyed.exists_mem_distinct _ hrow
  have hsorted : ∀ rows : List NamedRule, ((canonical rows).map sortKey).Pairwise (· < ·) :=
    fun rows => List.pairwise_map.mpr (Keyed.pairwise_distinct sortKey rows)
  have heq : (canonical rules).map sortKey = (canonical others).map sortKey :=
    (hsorted rules).eq_of_mem_iff (hsorted others) fun key => by rw [hkeys, hkeys, h]
  generalize canonical rules = xs at heq
  generalize canonical others = ys at heq
  induction xs generalizing ys with
  | nil =>
    rw [List.map_eq_nil_iff.mp heq.symm]
  | cons x xs ih =>
    cases ys with
    | nil => simp at heq
    | cons y ys =>
      obtain ⟨hhead, htail⟩ := List.cons.inj heq
      rw [List.map_cons, List.map_cons, toJson_eq_of_sortKey_eq hhead, ih ys htail]

theorem pairwise_canonical (rules : List NamedRule) :
    (canonical rules).Pairwise fun a b => a.sortKey < b.sortKey :=
  Keyed.pairwise_distinct sortKey rules

/-- Where rows are told apart by how they are written, each of them is kept. -/
theorem mem_canonical_iff {rows : List NamedRule} {row : NamedRule}
    (hapart : ∀ a ∈ rows, a.sortKey = row.sortKey → a = row) : row ∈ canonical rows ↔ row ∈ rows :=
  Keyed.mem_distinct_iff_mem hapart

/-- Rows that are told apart by how they are written are kept in one order, whatever order they are
given in and how often. -/
theorem canonical_eq {rows others : List NamedRule}
    (hmem : ∀ row, row ∈ rows ↔ row ∈ others)
    (hapart : ∀ a ∈ rows, ∀ b ∈ rows, a.sortKey = b.sortKey → a = b) :
    canonical rows = canonical others := by
  apply Keyed.eq_of_pairwise_of_mem_iff sortKey (pairwise_canonical rows)
    (pairwise_canonical others)
  intro row
  by_cases hrow : row ∈ rows
  · rw [mem_canonical_iff fun a ha => hapart a ha row hrow,
      mem_canonical_iff fun a ha => hapart a ((hmem a).mpr ha) row hrow, hmem]
  · have hothers : row ∉ others := fun h => hrow ((hmem row).mpr h)
    exact iff_of_false (fun h => hrow (mem_of_mem_canonical h)) fun h =>
      hothers (mem_of_mem_canonical h)

end NamedRule

end QueryGrammar
