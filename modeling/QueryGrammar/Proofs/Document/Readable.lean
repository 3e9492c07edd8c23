import QueryGrammar.Proofs.Document.Levels
import QueryGrammar.Proofs.Json.Persistent
/-!
Which documents can be read at all from their written form. A cost that is not finite is written as
null, which stands for a cost that is left out where one may be left out; an edit must have one. Apart
from that only nesting keeps a document from being read, and what is read is the document itself.
-/
namespace QueryGrammar

open Json Decoder

/-! ### More levels -/

theorem Features.persists : Persists Features.decode := by
  refine persists_record fun m n hmn fields f h => ?_
  split at h
  · exact bind_of_imp h (fun _ => (persists_tag _).absent hmn)
      fun _ h => bind_of_imp h (fun _ => (persists_tag _).absent hmn)
      fun _ h => bind_of_imp h (fun _ => (persists_tag _).absent hmn) fun _ h => h
  · cases h

theorem Inflections.persists : Persists Inflections.decode := by
  refine persists_record fun m n hmn fields forms h => ?_
  split at h
  · exact bind_of_imp h (fun _ => persists_text.absent hmn)
      fun _ h => bind_of_imp h (fun _ => persists_text.absent hmn)
      fun _ h => bind_of_imp h (fun _ => persists_text.absent hmn)
      fun _ h => bind_of_imp h (fun _ => persists_text.absent hmn)
      fun _ h => bind_of_imp h (fun _ => persists_text.absent hmn)
      fun _ h => bind_of_imp h (fun _ => persists_text.absent hmn) fun _ h => h
  · cases h

theorem DisplayText.persists : Persists DisplayText.decode := by
  refine persists_tagged fun name m n hmn j text h => ?_
  dsimp only at h ⊢
  split at h
  · exact h
  · exact h
  · exact persists_text.map _ hmn h
  · exact Inflections.persists.map _ hmn h
  · cases h

theorem Segment.persists : Persists Segment.decode := by
  intro m n hmn j segment h
  unfold Segment.decode at h ⊢
  split at h
  next hwhole =>
    rw [if_pos (isWhole_of_le hmn hwhole)]
    split at h
    · exact h
    · exact Inflections.persists.map _ hmn h
  · cases h

namespace Provenance

mutual

theorem decode_of_le : (m : Nat) → {n : Nat} → m ≤ n → {j : Json} → {t : Provenance} →
    decode m j = some t → decode n j = some t
  | m + 1, n, hmn, j, t, h => by
    obtain ⟨k, rfl, hk⟩ := exists_level hmn
    rw [decode] at h ⊢
    refine bind_of_imp h (fun _ hfields => hfields) fun fields h => ?_
    split at h
    next symbol segments children =>
      refine bind_of_imp h (fun _ => persists_text.present hk) fun _ h => ?_
      refine bind_of_imp h (fun _ => (Segment.persists.list.orElse []) hk) fun _ h => ?_
      cases children with
      | none => exact h
      | some children => exact bind_of_imp h (fun _ => decodeList_of_le m hk) fun _ h => h
    next => cases h

theorem decodeList_of_le : (m : Nat) → {n : Nat} → m ≤ n → {j : Json} → {ts : List Provenance} →
    decodeList m j = some ts → decodeList n j = some ts
  | m + 1, n, hmn, j, ts, h => by
    obtain ⟨k, rfl, hk⟩ := exists_level hmn
    cases j with
    | array items => exact mapM_of_imp (fun _ _ => decode_of_le m hk) h
    | _ => cases h

end

theorem persists : Persists decode := fun m _ hmn _ _ => decode_of_le m hmn

end Provenance

namespace NamedNode

mutual

theorem decode_of_le : (m : Nat) → {n : Nat} → m ≤ n → {j : Json} → {node : NamedNode} →
    decode m j = some node → decode n j = some node
  | m + 1, n, hmn, j, node, h => by
    obtain ⟨k, rfl, hk⟩ := exists_level hmn
    rw [decode] at h ⊢
    refine bind_of_imp h (fun _ hfields => hfields) fun fields h => ?_
    split at h
    next semantic children =>
      refine bind_of_imp h (fun _ => persists_text.present hk) fun _ h => ?_
      cases children with
      | none => exact h
      | some children => exact bind_of_imp h (fun _ => decodeList_of_le m hk) fun _ h => h
    next => cases h

theorem decodeList_of_le : (m : Nat) → {n : Nat} → m ≤ n → {j : Json} → {ns : List NamedNode} →
    decodeList m j = some ns → decodeList n j = some ns
  | m + 1, n, hmn, j, ns, h => by
    obtain ⟨k, rfl, hk⟩ := exists_level hmn
    cases j with
    | array items => exact mapM_of_imp (fun _ _ => decode_of_le m hk) h
    | _ => cases h

end

theorem persists_list : Persists decodeList := fun m _ hmn _ _ => decodeList_of_le m hmn

end NamedNode

theorem SemanticTraits.persists : Persists SemanticTraits.decode := by
  refine persists_record fun m n hmn fields s h => ?_
  split at h
  · exact bind_of_imp h (fun _ => persists_word64.present hmn)
      fun _ h => bind_of_imp h (fun _ => persists_word64.present hmn)
      fun _ h => bind_of_imp h (fun _ => persists_float.present hmn)
      fun _ h => bind_of_imp h (fun _ => persists_flag.present hmn)
      fun _ h => bind_of_imp h (fun _ => persists_flag.present hmn) fun _ h => h
  · cases h

theorem NamedRhs.persists : Persists NamedRhs.decode := by
  refine persists_tagged fun name m n hmn j rhs h => ?_
  dsimp only at h ⊢
  split at h
  · exact persists_text.list.map _ hmn h
  · exact persists_text.map _ hmn h
  · exact persists_text.list.map _ hmn h
  · exact persists_text.map _ hmn h
  · cases h

theorem NamedAttachment.persists : Persists NamedAttachment.decode := by
  refine persists_tagged fun name m n hmn j a h => ?_
  dsimp only at h ⊢
  split at h
  · exact NamedNode.persists_list.map _ hmn h
  · exact persists_text.list.map _ hmn h
  · cases h

theorem NamedInsertion.persists : Persists NamedInsertion.decode := by
  refine persists_record fun m n hmn fields i h => ?_
  split at h
  · exact bind_of_imp h (fun _ => persists_float.present hmn)
      fun _ h => bind_of_imp h (fun _ => (persists_tag _).present hmn)
      fun _ h => bind_of_imp h (fun _ => (Segment.persists.list.orElse []) hmn)
      fun _ h => bind_of_imp h (fun _ => NamedNode.persists_list.absent hmn)
      fun _ h => bind_of_imp h (fun _ => Provenance.persists.absent hmn) fun _ h => h
  · cases h

theorem NamedEdit.persists : Persists NamedEdit.decode := by
  refine persists_tagged fun name m n hmn j edit h => ?_
  dsimp only at h ⊢
  split at h
  · exact NamedInsertion.persists.map _ hmn h
  · refine persists_record (fun m n hmn fields edit h => ?_) hmn h
    split at h
    · exact persists_float.present.map _ hmn h
    · cases h
  · cases h

theorem NamedRule.persists : Persists NamedRule.decode := by
  refine persists_record fun m n hmn fields rule h => ?_
  split at h
  · exact bind_of_imp h (fun _ => NamedRhs.persists.present hmn)
      fun _ h => bind_of_imp h (fun _ => DisplayText.persists.absent hmn)
      fun _ h => bind_of_imp h (fun _ => NamedAttachment.persists.absent hmn)
      fun _ h => bind_of_imp h (fun _ => (Features.persists.orElse {}) hmn)
      fun _ h => bind_of_imp h (fun _ => persists_float.absent hmn)
      fun _ h => bind_of_imp h (fun _ => persists_float.absent hmn)
      fun _ h => bind_of_imp h (fun _ => (persists_word64.list.orElse []) hmn)
      fun _ h => bind_of_imp h (fun _ => NamedEdit.persists.absent hmn) fun _ h => h
  · cases h

theorem Document.persists : Persists Document.decode := by
  refine persists_record fun m n hmn fields g h => ?_
  split at h
  · exact bind_of_imp h (fun _ => persists_word32.present hmn)
      fun _ h => bind_of_imp h (fun _ => persists_text.present hmn)
      fun _ h => bind_of_imp h (fun _ => persists_text.present hmn)
      fun _ h => bind_of_imp h (fun _ => persists_text.present hmn)
      fun _ h => bind_of_imp h (fun _ => NamedRule.persists.list.mapDecoder.present hmn)
      fun _ h => bind_of_imp h (fun _ => SemanticTraits.persists.mapDecoder.present hmn)
      fun _ h => bind_of_imp h (fun _ => persists_text.list.mapDecoder.present hmn) fun _ h => h
  · cases h

/-! ### Costs that cannot be read -/

namespace Decoder

variable {α β : Type} {levels : Nat}

theorem isFinite_of_float {x y : Float} (h : float levels (.float x) = some y) :
    x.isFinite = true := by
  by_contra hx
  rw [Json.float, if_neg hx] at h
  cases h

theorem exists_of_mapM {f : α → Option β} {items : List α} {results : List β}
    (h : items.mapM f = some results) {i : α} (hi : i ∈ items) : ∃ x, f i = some x := by
  induction items generalizing results with
  | nil => cases hi
  | cons k ks ih =>
    simp only [List.mapM_cons, Option.bind_eq_bind, Option.bind_eq_some_iff] at h
    obtain ⟨x, hx, xs, hxs, -⟩ := h
    rcases List.mem_cons.mp hi with rfl | hi
    · exact ⟨x, hx⟩
    · exact ih hxs hi

theorem exists_of_list {item : Decoder α} {f : β → Json} {items : List β} {results : List α}
    (h : list item levels (.array (items.map f)) = some results) {b : β} (hb : b ∈ items) :
    ∃ n x, item n (f b) = some x := by
  cases levels with
  | zero => cases h
  | succ n => exact ⟨n, exists_of_mapM h (List.mem_map_of_mem hb)⟩

theorem exists_of_map {value : Decoder α} {f : β → Json} {m : SortedMap β} {result : SortedMap α}
    (h : map value levels (Document.mapJson f m) = some result) {e : String × β}
    (he : e ∈ m.entries) : ∃ n x, value n (f e.2) = some x := by
  cases levels with
  | zero => cases h
  | succ n =>
    obtain ⟨pairs, hpairs, -⟩ := Option.bind_eq_some_iff.mp h
    obtain ⟨pair, hpair⟩ := exists_of_mapM hpairs
      (List.mem_map_of_mem (List.mem_map_of_mem he))
    obtain ⟨name, -, hpair⟩ := Option.bind_eq_some_iff.mp hpair
    obtain ⟨x, hx, -⟩ := Option.bind_eq_some_iff.mp hpair
    exact ⟨n, x, hx⟩

/-- Whatever a record finds under a name, it was written there first. -/
theorem eq_find?_of_uniqueMember {members : List (String × Json)} {name : String} {j : Option Json}
    (h : uniqueMember members name = some j) : j = Keyed.find? name members := by
  have hfind : Keyed.find? name members = (members.filter (·.1 == name)).head?.map (·.2) := by
    rw [List.head?_filter]
    rfl
  rw [hfind]
  unfold uniqueMember at h
  split at h
  next hnone => rw [hnone, ← Option.some.inj h]; rfl
  next hone => rw [hone, ← Option.some.inj h]; rfl
  next => cases h

theorem exists_of_record {names : List String} {build : Nat → List (Option Json) → Option α}
    {members : List (String × Json)} {a : α}
    (h : Decoder.record names build levels (Json.record members) = some a) :
    ∃ n, build n (names.map fun name => Keyed.find? name members) = some a := by
  cases levels with
  | zero => cases h
  | succ n =>
    obtain ⟨fields, hfields, hbuild⟩ := Option.bind_eq_some_iff.mp h
    refine ⟨n, ?_⟩
    obtain ⟨named, hnamed, hfields⟩ := Option.bind_eq_some_iff.mp hfields
    have hmembers := mapM_map_eq (k := id) (l := members)
      (f := fun m : Option String × Json => m.1.map fun name => (name, m.2))
      (g := fun m => (some m.1, m.2)) fun m _ => rfl
    rw [List.map_id] at hmembers
    obtain rfl := Option.some.inj (hmembers.symm.trans hnamed)
    have hunique := mapM_of_imp (g := fun name => some (Keyed.find? name members))
      (fun name j hj => congrArg some (eq_find?_of_uniqueMember hj).symm) hfields
    have hall := mapM_map_eq (g := id) (l := names)
      (f := fun name => some (Keyed.find? name members)) fun name _ => rfl
    rw [List.map_id] at hall
    exact Option.some.inj (hunique.symm.trans hall) ▸ hbuild

end Decoder

theorem NamedInsertion.isFinite_of_decode {i : NamedInsertion} {b : NamedInsertion} {levels : Nat}
    (h : NamedInsertion.decode levels i.toJson = some b) : i.cost.isFinite = true := by
  obtain ⟨n, h⟩ := exists_of_record h
  obtain ⟨cost, hcost, -⟩ := Option.bind_eq_some_iff.mp h
  exact isFinite_of_float hcost

theorem NamedEdit.isFinite_of_decode {edit b : NamedEdit} {levels : Nat}
    (h : NamedEdit.decode levels edit.toJson = some b) : edit.cost.isFinite = true := by
  cases levels with
  | zero => cases edit <;> cases h
  | succ n =>
    cases edit with
    | insertion i =>
      obtain ⟨j, hj, -⟩ := Option.map_eq_some_iff.mp h
      exact NamedInsertion.isFinite_of_decode hj
    | transposition cost =>
      obtain ⟨k, h⟩ := exists_of_record h
      obtain ⟨x, hx, -⟩ := Option.map_eq_some_iff.mp h
      exact isFinite_of_float hx

theorem NamedRule.isFinite_of_decode {rule b : NamedRule} {levels : Nat}
    (h : NamedRule.decode levels rule.toJson = some b) {edit : NamedEdit}
    (hedit : rule.edit = some edit) : edit.cost.isFinite = true := by
  obtain ⟨n, h⟩ := exists_of_record (show Decoder.record _ _ _ (Json.record rule.members) = _ from h)
  obtain ⟨_, -, h⟩ := Option.bind_eq_some_iff.mp h
  obtain ⟨_, -, h⟩ := Option.bind_eq_some_iff.mp h
  obtain ⟨_, -, h⟩ := Option.bind_eq_some_iff.mp h
  obtain ⟨_, -, h⟩ := Option.bind_eq_some_iff.mp h
  obtain ⟨_, -, h⟩ := Option.bind_eq_some_iff.mp h
  obtain ⟨_, -, h⟩ := Option.bind_eq_some_iff.mp h
  obtain ⟨_, -, h⟩ := Option.bind_eq_some_iff.mp h
  obtain ⟨read, hread, -⟩ := Option.bind_eq_some_iff.mp h
  change absent NamedEdit.decode n (Keyed.find? "edit" rule.members) = some read at hread
  rw [rule.find?_members_edit, hedit] at hread
  have hdecode : (NamedEdit.decode n edit.toJson).map some = some read := by
    cases edit <;> exact hread
  obtain ⟨x, hx, -⟩ := Option.map_eq_some_iff.mp hdecode
  exact NamedEdit.isFinite_of_decode hx

namespace Document

/-- An edit that stands in some row. -/
def HasEdit (g : Document) (edit : NamedEdit) : Prop :=
  ∃ e ∈ g.ruleSets.entries, ∃ rule ∈ e.2, rule.edit = some edit

theorem isFinite_of_decode {g b : Document} {levels : Nat} (h : decode levels g.toJson = some b)
    {edit : NamedEdit} (hedit : g.HasEdit edit) : edit.cost.isFinite = true := by
  obtain ⟨e, he, rule, hrule, hedit⟩ := hedit
  obtain ⟨n, h⟩ := exists_of_record h
  obtain ⟨_, -, h⟩ := Option.bind_eq_some_iff.mp h
  obtain ⟨_, -, h⟩ := Option.bind_eq_some_iff.mp h
  obtain ⟨_, -, h⟩ := Option.bind_eq_some_iff.mp h
  obtain ⟨_, -, h⟩ := Option.bind_eq_some_iff.mp h
  obtain ⟨sets, hsets, -⟩ := Option.bind_eq_some_iff.mp h
  have hsets : map (list NamedRule.decode) n
      (mapJson (fun rules => .array (rules.map NamedRule.toJson)) g.ruleSets) = some sets := hsets
  obtain ⟨k, rows, hrows⟩ := exists_of_map hsets he
  obtain ⟨l, row, hrow⟩ := exists_of_list hrows hrule
  exact NamedRule.isFinite_of_decode hrow hedit

/-- A document whose other costs are finite can be read exactly if its edits have finite costs and it
nests no deeper than a reader goes. What is read is the document. -/
theorem ofText?_toPretty_iff {g : Document}
    (hexact : ∀ x ∈ g.costs, x.isFinite = true → (Numeral.ofFinite x).toFloat? = some x)
    (hother : ∀ x ∈ g.costs, x.isFinite = true ∨ ∃ edit, g.HasEdit edit ∧ edit.cost = x)
    {b : Document} : ofText? g.toPretty = some b ↔
      b = g ∧ (∀ edit, g.HasEdit edit → edit.cost.isFinite = true) ∧ g.toJson.depth ≤ maxLevels := by
  have hcosts (h : ∀ edit, g.HasEdit edit → edit.cost.isFinite = true) : ∀ x ∈ g.costs, Exact x := by
    intro x hx
    have hfinite : x.isFinite = true := by
      rcases hother x hx with hfinite | ⟨edit, hedit, rfl⟩
      · exact hfinite
      · exact h edit hedit
    exact ⟨hfinite, hexact x hx hfinite⟩
  constructor
  · intro h
    rw [ofText?_toPretty_eq] at h
    have hfinite : ∀ edit, g.HasEdit edit → edit.cost.isFinite = true :=
      fun _ => isFinite_of_decode h
    obtain rfl := Document.persists.eq_of_reads (reads (hcosts hfinite)) h
    exact ⟨rfl, hfinite, (yields _ _ _ h).1⟩
  · rintro ⟨rfl, hfinite, hdepth⟩
    exact ofText?_toPretty (hcosts hfinite) hdepth

end Document

end QueryGrammar
