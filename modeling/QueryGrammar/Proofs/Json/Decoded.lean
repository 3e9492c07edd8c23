import QueryGrammar.Json.Decoder
import QueryGrammar.Proofs.Json.Digits
import QueryGrammar.Proofs.Json.Numeral
import QueryGrammar.Proofs.Order.Keyed
/-!
What the decoders make of written values. A value is decoded within as many levels as its arrays and
objects nest; a record finds each of its members under its name, and what was left out is absent.
-/
namespace QueryGrammar

/-! ### Nesting -/

namespace Json

mutual

/-- How deep arrays and objects nest in a value. -/
def depth : Json → Nat
  | .null => 0
  | .bool _ => 0
  | .number _ => 0
  | .string _ => 0
  | .array items => depthItems items + 1
  | .object members => depthMembers members + 1

def depthItems : List Json → Nat
  | [] => 0
  | x :: xs => max (depth x) (depthItems xs)

def depthMembers : List (Option String × Json) → Nat
  | [] => 0
  | m :: ms => max (depth m.2) (depthMembers ms)

end

variable {α : Type} {levels : Nat}

theorem depthItems_le_iff {items : List Json} :
    depthItems items ≤ levels ↔ ∀ x ∈ items, x.depth ≤ levels := by
  induction items with
  | nil => simp [depthItems]
  | cons x xs ih => simp [depthItems, ih]

theorem depthMembers_le_iff {members : List (Option String × Json)} :
    depthMembers members ≤ levels ↔ ∀ m ∈ members, m.2.depth ≤ levels := by
  induction members with
  | nil => simp [depthMembers]
  | cons m ms ih => simp [depthMembers, ih]

/-- An array needs a level more than its items. -/
theorem depth_array_le_iff {items : List Json} :
    (Json.array items).depth ≤ levels ↔ ∃ n, levels = n + 1 ∧ ∀ x ∈ items, x.depth ≤ n := by
  rw [depth]
  constructor
  · intro h
    obtain ⟨n, rfl⟩ := Nat.exists_eq_add_of_le' (Nat.le_of_add_left_le h)
    exact ⟨n, rfl, depthItems_le_iff.mp (Nat.le_of_succ_le_succ h)⟩
  · rintro ⟨n, rfl, h⟩
    exact Nat.succ_le_succ (depthItems_le_iff.mpr h)

/-- A record needs a level more than its members. -/
theorem depth_record_le_iff {members : List (String × Json)} :
    (Json.record members).depth ≤ levels ↔ ∃ n, levels = n + 1 ∧ ∀ m ∈ members, m.2.depth ≤ n := by
  have hmembers : ∀ n, depthMembers (members.map fun m => (some m.1, m.2)) ≤ n ↔
      ∀ m ∈ members, m.2.depth ≤ n := by
    intro n
    rw [depthMembers_le_iff, List.forall_mem_map]
  rw [record, depth]
  constructor
  · intro h
    obtain ⟨n, rfl⟩ := Nat.exists_eq_add_of_le' (Nat.le_of_add_left_le h)
    exact ⟨n, rfl, (hmembers n).mp (Nat.le_of_succ_le_succ h)⟩
  · rintro ⟨n, rfl, h⟩
    exact Nat.succ_le_succ ((hmembers n).mpr h)

theorem depth_map_le_iff {f : α → Json} {items : List α} :
    (array (items.map f)).depth ≤ levels ↔
      ∃ n, levels = n + 1 ∧ ∀ x ∈ items, (f x).depth ≤ n := by
  rw [depth_array_le_iff]
  simp only [List.forall_mem_map]

/-- An object of one member needs a level more than the member. -/
theorem depth_tagged_le {name : String} {j : Json} {n : Nat} (h : j.depth ≤ n) :
    (record [(name, j)]).depth ≤ n + 1 :=
  depth_record_le_iff.mpr ⟨n, rfl, List.forall_mem_singleton.mpr h⟩

theorem depth_float (x : Float) : (float x).depth = 0 := by
  unfold float
  split <;> rfl

/-! ### Members -/

theorem forall_optionalMember {P : String × Json → Prop} {name : String} {f : α → Json}
    {value : Option α} :
    (∀ m ∈ optionalMember name (value.map f), P m) ↔ ∀ x ∈ value, P (name, f x) := by
  cases value <;> simp [optionalMember]

theorem forall_listMember {P : String × Json → Prop} {name : String} {items : List Json} :
    (∀ m ∈ listMember name items, P m) ↔ (items ≠ [] → P (name, .array items)) := by
  cases items <;> simp [listMember]

end Json

namespace Decoder

open Json (depth)

variable {α β : Type} {name : String} {a : α} {j : Json}

/-- Within the levels that the value needs, the decoder makes this of it. -/
def Reads (decode : Decoder α) (j : Json) (a : α) : Prop :=
  ∀ levels, j.depth ≤ levels → decode levels j = some a

/-- Within the levels that the member needs, if it is there, the decoder makes this of it. -/
def ReadsMember (decode : Nat → Option Json → Option α) (member : Option Json) (a : α) : Prop :=
  ∀ levels, (∀ j ∈ member, j.depth ≤ levels) → decode levels member = some a

/-! ### Values -/

theorem reads_text (s : String) : text.Reads (.text s) s := fun _ _ => rfl

theorem reads_flag (b : Bool) : flag.Reads (.bool b) b := fun _ _ => rfl

theorem toNat?_ofNat {n bound : Nat} (h : n < bound) :
    (Numeral.ofNat n).toNat? bound = some n := by
  simp [Numeral.toNat?, Numeral.ofNat, Numeral.digitsValue_toDigits, h]

theorem reads_word32 (n : UInt32) : word32.Reads (.nat n.toNat) n := by
  intro levels _
  simp [word32, natural, Json.nat, toNat?_ofNat n.toNat_lt_size]

theorem reads_word64 (n : UInt64) : word64.Reads (.nat n.toNat) n := by
  intro levels _
  simp [word64, natural, Json.nat, toNat?_ofNat n.toNat_lt_size]

/-- A double whose text reads back as the same double. -/
def Exact (x : Float) : Prop := x.isFinite = true ∧ (Numeral.ofFinite x).toFloat? = some x

theorem reads_float {x : Float} (h : Exact x) : float.Reads (.float x) x := by
  intro levels _
  rw [Json.float, if_pos h.1]
  exact h.2

theorem Reads.map {decode : Decoder α} (h : decode.Reads j a) (f : α → β) :
    Reads (fun levels j => (decode levels j).map f) j (f a) := by
  intro levels hdepth
  simp [h levels hdepth]

/-- Written items are taken one by one. -/
theorem mapM_map_eq {γ : Type} {f : γ → Option β} {g : α → γ} {k : α → β} {l : List α}
    (h : ∀ x ∈ l, f (g x) = some (k x)) : (l.map g).mapM f = some (l.map k) := by
  induction l with
  | nil => rfl
  | cons x xs ih =>
    rw [List.forall_mem_cons] at h
    rw [List.map_cons, List.mapM_cons, h.1, ih h.2]
    rfl

theorem reads_list {item : Decoder α} {f : α → Json} {items : List α}
    (h : ∀ x ∈ items, item.Reads (f x) x) : (list item).Reads (.array (items.map f)) items := by
  intro levels hdepth
  obtain ⟨n, rfl, hitems⟩ := Json.depth_array_le_iff.mp hdepth
  have hmap := mapM_map_eq (k := id) fun x hx => h x hx n (hitems _ (List.mem_map_of_mem hx))
  rwa [List.map_id] at hmap

theorem reads_texts (items : List String) : (list text).Reads (.texts items) items :=
  reads_list fun x _ => reads_text x

theorem Reads.optional {decode : Decoder α} (h : decode.Reads j a) (hnull : j ≠ .null) :
    (Decoder.optional decode).Reads j (some a) := by
  intro levels hdepth
  unfold Decoder.optional
  split
  · exact absurd rfl hnull
  · rw [h levels hdepth]
    rfl

/-- The pairs of a map are in order already. -/
theorem ofList_entries (m : SortedMap α) : SortedMap.ofList m.entries = m := by
  apply SortedMap.ext_entries
  refine (Keyed.ascending_ofList _ _).eq_of_mem_iff m.ascending fun p => ?_
  refine Keyed.mem_ofList_last_iff fun p hp q hq hkey => ?_
  have hp := Keyed.find?_of_mem m.ascending.nodup_keys hp
  have hq := Keyed.find?_of_mem m.ascending.nodup_keys hq
  rw [hkey, hq] at hp
  exact (Option.some.inj hp).symm

theorem reads_map {decode : Decoder α} {f : α → Json} {m : SortedMap α}
    (h : ∀ e ∈ m.entries, decode.Reads (f e.2) e.2) :
    (map decode).Reads (.record (m.entries.map fun e => (e.1, f e.2))) m := by
  intro levels hdepth
  obtain ⟨n, rfl, hmembers⟩ := Json.depth_record_le_iff.mp hdepth
  have hpair : ∀ e ∈ m.entries, (decode n (f e.2)).bind (fun value => some (e.1, value)) =
      some (e.1, e.2) := by
    intro e he
    rw [h e he n (hmembers _ (List.mem_map.mpr ⟨e, he, rfl⟩))]
    rfl
  have hpairs := mapM_map_eq (k := id)
    (f := fun m : Option String × Json => m.1.bind fun name =>
      (decode n m.2).bind fun value => some (name, value))
    (g := fun e : String × α => (some e.1, f e.2)) hpair
  rw [List.map_id] at hpairs
  simp only [Json.record, List.map_map, Function.comp_def]
  refine (congrArg (Option.bind · fun pairs => some (SortedMap.ofList pairs)) hpairs).trans ?_
  rw [Option.bind_some, ofList_entries]

theorem reads_tagged_bare {bare : String → Option α} {value : Nat → String → Json → Option α}
    {tag : String} (h : bare tag = some a) : (tagged bare value).Reads (.text tag) a := by
  intro levels _
  cases levels <;> exact h

theorem reads_tagged {bare : String → Option α} {value : Nat → String → Json → Option α}
    {tag : String} (h : Reads (fun levels j => value levels tag j) j a) :
    (tagged bare value).Reads (.record [(tag, j)]) a := by
  intro levels hdepth
  obtain ⟨n, rfl, hmembers⟩ := Json.depth_record_le_iff.mp hdepth
  exact h n (hmembers _ (List.mem_singleton.mpr rfl))

theorem reads_tag {ofName : String → Option α} {written : String} (h : ofName written = some a) :
    (tag ofName).Reads (.text written) a := reads_tagged_bare h

/-! ### Members -/

theorem Reads.present {decode : Decoder α} (h : decode.Reads j a) :
    ReadsMember (present decode) (some j) a := fun levels hdepth => h levels (hdepth j rfl)

theorem readsMember_absent {decode : Decoder α} {f : α → Json} {value : Option α}
    (h : ∀ x ∈ value, decode.Reads (f x) x ∧ f x ≠ .null) :
    ReadsMember (absent decode) (value.map f) value := by
  intro levels hdepth
  cases value with
  | none => rfl
  | some x => exact (h x rfl).1.optional (h x rfl).2 levels (hdepth (f x) rfl)

/-- A list that is left out where it is empty. -/
theorem readsMember_list {item : Decoder α} {f : α → Json} {items : List α}
    (h : ∀ x ∈ items, item.Reads (f x) x) :
    ReadsMember (orElse [] (list item)) (Keyed.find? name (Json.listMember name (items.map f)))
      items := by
  intro levels hdepth
  cases items with
  | nil => rfl
  | cons x xs =>
    have hfind : Keyed.find? name (Json.listMember name ((x :: xs).map f)) =
        some (.array ((x :: xs).map f)) := by simp [Json.listMember, Keyed.find?]
    rw [hfind] at hdepth ⊢
    exact reads_list h levels (hdepth _ rfl)

/-! ### Records -/

theorem uniqueMember_eq {members : List (String × Json)} (h : (members.map Prod.fst).Nodup)
    (name : String) : uniqueMember members name = some (Keyed.find? name members) := by
  induction members with
  | nil => rfl
  | cons m ms ih =>
    obtain ⟨hhead, htail⟩ := List.nodup_cons.mp h
    by_cases hm : m.1 = name
    · have hnone : ms.filter (fun k => k.1 == name) = [] := by
        refine List.filter_eq_nil_iff.mpr fun k hk heq => hhead (List.mem_map.mpr ⟨k, hk, ?_⟩)
        exact (beq_iff_eq.mp heq).trans hm.symm
      simp [uniqueMember, Keyed.find?_cons, hm, hnone]
    · have hskip : uniqueMember (m :: ms) name = uniqueMember ms name := by
        simp [uniqueMember, hm]
      rw [hskip, ih htail, Keyed.find?_cons, if_neg hm]

/-- A record finds its members under their names, if it does not repeat one. -/
theorem fields_record {names : List String} {members : List (String × Json)}
    (h : (members.map Prod.fst).Nodup) :
    fields names (.record members) = some (names.map fun name => Keyed.find? name members) := by
  have hnamed := mapM_map_eq (k := id) (l := members)
    (f := fun m : Option String × Json => m.1.map fun name => (name, m.2))
    (g := fun m => (some m.1, m.2)) fun m _ => rfl
  have hunique := mapM_map_eq (g := id) (l := names) fun name _ => uniqueMember_eq h name
  rw [List.map_id] at hnamed hunique
  exact (congrArg (Option.bind · fun members => names.mapM (uniqueMember members)) hnamed).trans
    hunique

/-- A record is built from what its members are decoded to, each within a level less. -/
theorem reads_record {names : List String} {build : Nat → List (Option Json) → Option α}
    {members : List (String × Json)} (hnames : (members.map Prod.fst).Sublist names)
    (hnodup : names.Nodup)
    (hbuild : ∀ levels, (∀ name, ∀ j ∈ Keyed.find? name members, j.depth ≤ levels) →
      build levels (names.map fun name => Keyed.find? name members) = some a) :
    (Decoder.record names build).Reads (.record members) a := by
  intro levels hdepth
  obtain ⟨n, rfl, hmembers⟩ := Json.depth_record_le_iff.mp hdepth
  rw [Decoder.record, fields_record (hnodup.sublist hnames)]
  exact hbuild n fun name j hj => hmembers (name, j) (Keyed.mem_of_find? hj)

theorem sublist_optionalMember (name : String) (value : Option Json) :
    ((Json.optionalMember name value).map Prod.fst).Sublist [name] := by
  cases value with
  | none => exact List.nil_sublist _
  | some j => exact List.Sublist.refl _

theorem sublist_listMember (name : String) (items : List Json) :
    ((Json.listMember name items).map Prod.fst).Sublist [name] := by
  unfold Json.listMember
  split
  · exact List.nil_sublist _
  · exact List.Sublist.refl _

/-! ### What is decoded -/

section Yields

variable {γ : Type} {P : Nat → α → Prop} {levels : Nat}

/-- Whatever is decoded within some levels has a property. -/
def Yields (decode : Decoder α) (P : Nat → α → Prop) : Prop :=
  ∀ levels j a, decode levels j = some a → P levels a

theorem mem_of_mapM {f : γ → Option β} {items : List γ} {results : List β}
    (h : items.mapM f = some results) {x : β} (hx : x ∈ results) : ∃ i ∈ items, f i = some x := by
  induction items generalizing results with
  | nil =>
    obtain rfl : [] = results := Option.some.inj h
    cases hx
  | cons i is ih =>
    simp only [List.mapM_cons, Option.bind_eq_bind, Option.bind_eq_some_iff] at h
    obtain ⟨y, hy, ys, hys, hresults⟩ := h
    obtain rfl : y :: ys = results := Option.some.inj hresults
    rcases List.mem_cons.mp hx with rfl | hx
    · exact ⟨i, List.mem_cons_self .., hy⟩
    · obtain ⟨i', hi', hf⟩ := ih hys hx
      exact ⟨i', List.mem_cons_of_mem _ hi', hf⟩

theorem Yields.list {item : Decoder α} (h : item.Yields P) :
    (list item).Yields fun levels items => ∃ n, levels = n + 1 ∧ ∀ x ∈ items, P n x := by
  intro levels j items hitems
  unfold Decoder.list at hitems
  split at hitems
  next n written =>
    refine ⟨n, rfl, fun x hx => ?_⟩
    obtain ⟨i, -, hi⟩ := mem_of_mapM hitems hx
    exact h n i x hi
  next => cases hitems

theorem mem_of_mem_ofList {pairs : List (String × α)} {e : String × α}
    (h : e ∈ (SortedMap.ofList pairs).entries) : e ∈ pairs := by
  have hfind := Keyed.find?_of_mem (Keyed.ascending_ofList (fun _ last => last) pairs).nodup_keys h
  rw [Keyed.find?_ofList_last] at hfind
  exact List.mem_reverse.mp (Keyed.mem_of_find? hfind)

theorem Yields.map {decode : Decoder α} (h : decode.Yields P) :
    (map decode).Yields fun levels m => ∃ n, levels = n + 1 ∧ ∀ e ∈ m.entries, P n e.2 := by
  intro levels j m hm
  unfold Decoder.map at hm
  split at hm
  next n members =>
    simp only [Option.bind_eq_bind, Option.bind_eq_some_iff] at hm
    obtain ⟨pairs, hpairs, hm⟩ := hm
    obtain rfl := Option.some.inj hm
    refine ⟨n, rfl, fun e he => ?_⟩
    obtain ⟨⟨name, written⟩, -, he⟩ := mem_of_mapM hpairs (mem_of_mem_ofList he)
    simp only [Option.bind_eq_some_iff] at he
    obtain ⟨key, -, value, hvalue, he⟩ := he
    obtain rfl := Option.some.inj he
    exact h n written value hvalue
  next => cases hm

theorem yields_record {names : List String} {build : Nat → List (Option Json) → Option α}
    (h : ∀ n members a, build n members = some a → P (n + 1) a) :
    (Decoder.record names build).Yields P := by
  intro levels j a ha
  cases levels with
  | zero => cases ha
  | succ n =>
    obtain ⟨members, -, hmembers⟩ := Option.bind_eq_some_iff.mp ha
    exact h n members a hmembers

theorem yields_tagged {bare : String → Option α} {value : Nat → String → Json → Option α}
    (hbare : ∀ levels tag a, bare tag = some a → P levels a)
    (hvalue : ∀ n tag j a, value n tag j = some a → P (n + 1) a) :
    (tagged bare value).Yields P := by
  intro levels j a ha
  unfold tagged at ha
  split at ha
  · exact hbare _ _ a ha
  · exact hvalue _ _ _ a ha
  · cases ha

theorem Yields.of_present {decode : Decoder α} (h : decode.Yields P) {member : Option Json} {a : α}
    (ha : present decode levels member = some a) : P levels a := by
  cases member with
  | none => cases ha
  | some j => exact h levels j a ha

theorem Yields.of_orElse {decode : Decoder α} (h : decode.Yields P) {default : α}
    {member : Option Json} {a : α} (ha : orElse default decode levels member = some a) :
    a = default ∨ P levels a := by
  cases member with
  | none => exact .inl (Option.some.inj ha).symm
  | some j => exact .inr (h levels j a ha)

theorem Yields.of_absent {decode : Decoder α} (h : decode.Yields P) {member : Option Json}
    {value : Option α} (hvalue : absent decode levels member = some value) :
    ∀ x ∈ value, P levels x := by
  have hoptional : (optional decode).Yields fun levels value => ∀ x ∈ value, P levels x := by
    intro levels j value hvalue
    unfold optional at hvalue
    split at hvalue
    · obtain rfl := Option.some.inj hvalue
      exact nofun
    · obtain ⟨a, ha, rfl⟩ := Option.map_eq_some_iff.mp hvalue
      intro x hx
      obtain rfl := Option.some.inj hx
      exact h _ _ a ha
  rcases hoptional.of_orElse hvalue with rfl | hall
  · exact nofun
  · exact hall

/-- A decoder of parts that are written within the levels they were decoded in. -/
abbrev Settles (decode : Decoder α) (toJson : α → Json) : Prop :=
  decode.Yields fun levels a => (toJson a).depth ≤ levels

/-- A list that may be left out is written within the levels if it is written at all. -/
theorem Settles.of_list {item : Decoder α} {toJson : α → Json} (h : item.Settles toJson)
    {member : Option Json} {items : List α}
    (hitems : orElse [] (Decoder.list item) levels member = some items)
    (hne : items.map toJson ≠ []) : (Json.array (items.map toJson)).depth ≤ levels := by
  rcases h.list.of_orElse hitems with rfl | hdepth
  · exact absurd rfl hne
  · exact Json.depth_map_le_iff.mpr hdepth

theorem settles_texts : (Decoder.list text).Settles Json.texts := by
  intro levels j names hnames
  have htext : Decoder.text.Settles Json.text := fun _ _ _ _ => Nat.zero_le _
  exact Json.depth_map_le_iff.mpr (htext.list levels j names hnames)

/-- A list of parts needs a level more than the parts, which are decoded in fewer levels. -/
theorem depth_list_le {decode : Decoder α} {toJson : α → Json}
    (h : ∀ n < levels, ∀ j x, decode n j = some x → (toJson x).depth ≤ n) {j : Json} {xs : List α}
    (hxs : Decoder.list decode levels j = some xs) : (Json.array (xs.map toJson)).depth ≤ levels := by
  have hitems : (Decoder.list decode).Yields fun levels items =>
      ∃ n, levels = n + 1 ∧ ∀ x ∈ items, ∃ j, decode n j = some x :=
    Yields.list fun _ j _ hj => ⟨j, hj⟩
  obtain ⟨n, rfl, hdecoded⟩ := hitems levels j xs hxs
  refine Json.depth_map_le_iff.mpr ⟨n, rfl, fun x hx => ?_⟩
  obtain ⟨i, hi⟩ := hdecoded x hx
  exact h n n.lt_succ_self i x hi

end Yields

end Decoder

end QueryGrammar
