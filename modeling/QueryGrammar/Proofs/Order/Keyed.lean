import Mathlib.Data.List.Sort
import QueryGrammar.Order.SortedMap
/-!
What a list of keyed values holds at a key. Inserting many pairs combines those of one key, so a
list of distinct items keeps the first item of every key, and two such lists with the same members
are equal.
-/
namespace QueryGrammar.Keyed

section Lookup

variable {κ α : Type} [DecidableEq κ]

theorem find?_cons (k : κ) (e : κ × α) (rest : List (κ × α)) :
    find? k (e :: rest) = if e.1 = k then some e.2 else find? k rest := by
  by_cases h : e.1 = k <;> simp [find?, h]

theorem mem_of_find? {entries : List (κ × α)} {k : κ} {v : α} (h : find? k entries = some v) :
    (k, v) ∈ entries := by
  obtain ⟨e, he, rfl⟩ := Option.map_eq_some_iff.mp h
  have hk : e.1 = k := by simpa using List.find?_some he
  exact hk ▸ List.mem_of_find?_eq_some he

theorem find?_of_mem {entries : List (κ × α)} (h : (entries.map Prod.fst).Nodup) {k : κ} {v : α}
    (hmem : (k, v) ∈ entries) : find? k entries = some v := by
  induction entries with
  | nil => simp at hmem
  | cons e rest ih =>
    obtain ⟨hhead, htail⟩ := List.nodup_cons.mp h
    rw [find?_cons]
    rcases List.mem_cons.mp hmem with rfl | hmem
    · simp
    · have hne : e.1 ≠ k := fun he => hhead (List.mem_map.mpr ⟨_, hmem, he.symm⟩)
      rw [if_neg hne]
      exact ih htail hmem

variable [LT κ] [Std.Irrefl (α := κ) (· < ·)]

omit [DecidableEq κ] in
theorem Ascending.nodup_keys {entries : List (κ × α)} (h : Ascending entries) :
    (entries.map Prod.fst).Nodup := by
  rw [List.Nodup, List.pairwise_map]
  refine List.Pairwise.imp (fun {a b} hab heq => ?_) h
  exact Std.Irrefl.irrefl (r := (· < ·)) b.1 (heq ▸ hab)

omit [DecidableEq κ] in
/-- Lists in ascending order of their keys that hold the same items are equal. -/
theorem eq_of_pairwise_of_mem_iff [Trans (α := κ) (· < ·) (· < ·) (· < ·)] (key : α → κ)
    {xs ys : List α} (hx : xs.Pairwise fun a b => key a < key b)
    (hy : ys.Pairwise fun a b => key a < key b) (h : ∀ x, x ∈ xs ↔ x ∈ ys) : xs = ys := by
  have hirrefl : ∀ k : κ, ¬ k < k := Std.Irrefl.irrefl
  have : Std.Irrefl fun a b : α => key a < key b := ⟨fun a => hirrefl (key a)⟩
  have : Std.Antisymm fun a b : α => key a < key b :=
    ⟨fun a b hab hba => absurd (Trans.trans hab hba) (hirrefl (key a))⟩
  exact List.Pairwise.eq_of_mem_iff hx hy h

omit [DecidableEq κ] in
theorem Ascending.eq_of_mem_iff [Trans (α := κ) (· < ·) (· < ·) (· < ·)] {xs ys : List (κ × α)}
    (hx : Ascending xs) (hy : Ascending ys) (h : ∀ p, p ∈ xs ↔ p ∈ ys) : xs = ys :=
  eq_of_pairwise_of_mem_iff Prod.fst hx hy h

theorem find?_of_all_lt {entries : List (κ × α)} {k : κ} (h : ∀ e ∈ entries, k < e.1) :
    find? k entries = none := by
  cases hf : find? k entries with
  | none => rfl
  | some v => exact absurd (h _ (mem_of_find? hf)) (Std.Irrefl.irrefl k)

end Lookup

section Fold

variable {κ α : Type} [DecidableEq κ] [LT κ] [DecidableLT κ]
variable [Trans (α := κ) (· < ·) (· < ·) (· < ·)] [Std.Trichotomous (α := κ) (· < ·)]
variable [Std.Irrefl (α := κ) (· < ·)]

theorem find?_insertWith (combine : α → α → α) (key k : κ) (value : α) {entries : List (κ × α)}
    (h : Ascending entries) :
    find? k (insertWith combine key value entries) =
      if key = k then some ((find? k entries).elim value (combine · value))
      else find? k entries := by
  induction entries with
  | nil =>
    rw [insertWith, find?_cons]
    rfl
  | cons e rest ih =>
    obtain ⟨hhead, htail⟩ := List.pairwise_cons.mp h
    simp only [insertWith]
    split
    next hlt =>
      rw [find?_cons]
      by_cases hk : key = k
      · have hnone : find? k (e :: rest) = none := find?_of_all_lt fun f hf => by
          rcases List.mem_cons.mp hf with rfl | hf
          · exact hk ▸ hlt
          · exact hk ▸ Trans.trans hlt (hhead f hf)
        simp [hk, hnone]
      · simp [hk]
    next hnlt =>
      split
      next hgt =>
        rw [find?_cons, find?_cons, ih htail]
        by_cases he : e.1 = k
        · have hne : key ≠ k := fun hk =>
            Std.Irrefl.irrefl (r := (· < ·)) k (by simpa [he, hk] using hgt)
          simp [he, hne]
        · simp [he]
      next hngt =>
        have heq : e.1 = key := (Std.Trichotomous.trichotomous key e.1 hnlt hngt).symm
        rw [find?_cons, find?_cons]
        by_cases hk : key = k
        · simp [heq, hk]
        · simp [heq, hk]

/-- A value at a key is what the pairs of this key combine to. -/
theorem find?_ofList (combine : α → α → α) (pairs : List (κ × α)) (k : κ) :
    find? k (ofList combine pairs) =
      (pairs.filter (·.1 = k)).foldl
        (fun acc p => some (acc.elim p.2 (combine · p.2))) none := by
  suffices ∀ entries : List (κ × α), Ascending entries →
      find? k (pairs.foldl (fun es p => insertWith combine p.1 p.2 es) entries) =
        (pairs.filter (·.1 = k)).foldl
          (fun acc p => some (acc.elim p.2 (combine · p.2))) (find? k entries) from
    this [] List.Pairwise.nil
  induction pairs with
  | nil => exact fun _ _ => rfl
  | cons p pairs ih =>
    intro entries h
    rw [List.foldl_cons, ih _ (ascending_insertWith combine p.1 p.2 h),
      find?_insertWith combine p.1 k p.2 h]
    by_cases hp : p.1 = k <;> simp [hp]

theorem find?_ofList_first (pairs : List (κ × α)) (k : κ) :
    find? k (ofList (fun first _ => first) pairs) = find? k pairs := by
  have kept : ∀ (ps : List (κ × α)) (v : α),
      ps.foldl (fun acc p => some (acc.elim p.2 fun first => first)) (some v) = some v := by
    intro ps v
    induction ps with
    | nil => rfl
    | cons p ps ih => exact ih
  rw [find?_ofList, find?, ← List.head?_filter]
  cases pairs.filter (·.1 = k) with
  | nil => rfl
  | cons p ps => exact kept ps p.2

theorem find?_ofList_last (pairs : List (κ × α)) (k : κ) :
    find? k (ofList (fun _ last => last) pairs) = find? k pairs.reverse := by
  rw [find?_ofList, find?, ← List.head?_filter, List.filter_reverse, List.head?_reverse]
  rcases List.eq_nil_or_concat (pairs.filter (·.1 = k)) with h | ⟨ps, p, h⟩
  · simp [h]
  · rw [h, List.concat_eq_append, List.foldl_append]
    cases ps.foldl (fun acc p => some (acc.elim p.2 fun _ => p.2)) (none : Option α) <;> simp

/-- Where pairs of one key have one value, the pairs are only put in order. -/
theorem mem_ofList_last_iff {pairs : List (κ × α)}
    (h : ∀ p ∈ pairs, ∀ q ∈ pairs, p.1 = q.1 → p.2 = q.2) {p : κ × α} :
    p ∈ ofList (fun _ last => last) pairs ↔ p ∈ pairs := by
  have hfind := find?_ofList_last pairs p.1
  constructor
  · intro hp
    rw [find?_of_mem (ascending_ofList _ pairs).nodup_keys hp] at hfind
    simpa using mem_of_find? hfind.symm
  · intro hp
    cases hlast : find? p.1 pairs.reverse with
    | none =>
      have hnone := List.find?_eq_none.mp (Option.map_eq_none_iff.mp hlast) p
        (List.mem_reverse.mpr hp)
      simp at hnone
    | some value =>
      have hmem : (p.1, value) ∈ pairs := List.mem_reverse.mp (mem_of_find? hlast)
      obtain rfl : p.2 = value := h p hp _ hmem rfl
      exact mem_of_find? (hfind.trans hlast)

/-- Counting keys leaves each with the number of its occurrences. -/
theorem mem_ofList_count_iff {keys : List κ} {k : κ} {n : Nat} :
    (k, n) ∈ ofList (· + ·) (keys.map fun k => (k, 1)) ↔ n = keys.countP (· = k) ∧ 0 < n := by
  have hcount : ∀ (xs : List κ) (m : Nat),
      xs.foldl (fun acc _ => some (acc.elim 1 (· + 1))) (some m) = some (m + xs.length) := by
    intro xs
    induction xs with
    | nil => exact fun _ => rfl
    | cons x xs ih =>
      intro m
      rw [List.foldl_cons, List.length_cons, Nat.add_comm xs.length, ← Nat.add_assoc]
      exact ih (m + 1)
  have hfind : find? k (ofList (· + ·) (keys.map fun k => (k, 1))) =
      (keys.filter (· = k)).foldl (fun acc _ => some (acc.elim 1 (· + 1))) none := by
    rw [find?_ofList, List.filter_map, List.foldl_map]
    rfl
  have hmem : (k, n) ∈ ofList (· + ·) (keys.map fun k => (k, 1)) ↔
      find? k (ofList (· + ·) (keys.map fun k => (k, 1))) = some n :=
    ⟨find?_of_mem (ascending_ofList _ _).nodup_keys, mem_of_find?⟩
  rw [hmem, hfind, List.countP_eq_length_filter]
  cases keys.filter (· = k) with
  | nil => simp
  | cons x xs =>
    have hxs := hcount xs 1
    simp only [List.foldl_cons, List.length_cons, Option.elim_none] at hxs ⊢
    rw [hxs, Option.some.injEq]
    omega

end Fold

section Distinct

variable {κ α : Type} [DecidableEq κ] [LT κ] [DecidableLT κ]
variable [Trans (α := κ) (· < ·) (· < ·) (· < ·)] [Std.Trichotomous (α := κ) (· < ·)]
variable [Std.Irrefl (α := κ) (· < ·)] {key : α → κ} {items : List α}

theorem mem_ofList_first_iff {p : κ × α} :
    p ∈ ofList (fun first _ => first) (items.map fun x => (key x, x)) ↔
      items.find? (key · = p.1) = some p.2 := by
  have hfind : find? p.1 (items.map fun x => (key x, x)) = items.find? (key · = p.1) := by
    induction items with
    | nil => rfl
    | cons x xs ih =>
      rw [List.map_cons, find?_cons, List.find?_cons, ih]
      by_cases h : key x = p.1 <;> simp [h]
  rw [← hfind, ← find?_ofList_first]
  exact ⟨find?_of_mem (ascending_ofList _ _).nodup_keys, mem_of_find?⟩

/-- Of the items with one key the first is kept. -/
theorem mem_distinct_iff {x : α} :
    x ∈ distinct key items ↔ items.find? (key · = key x) = some x := by
  simp only [distinct, List.mem_map, Prod.exists, mem_ofList_first_iff]
  constructor
  · rintro ⟨k, y, h, rfl⟩
    have hk : key y = k := by simpa using List.find?_some h
    exact hk ▸ h
  · exact fun h => ⟨key x, x, h, rfl⟩

theorem mem_of_mem_distinct {x : α} (h : x ∈ distinct key items) : x ∈ items :=
  List.mem_of_find?_eq_some (mem_distinct_iff.mp h)

variable (key) in
theorem exists_mem_distinct {x : α} (h : x ∈ items) :
    ∃ y ∈ distinct key items, key y = key x := by
  cases hf : items.find? (key · = key x) with
  | none => simpa using List.find?_eq_none.mp hf x h
  | some y =>
    have hy : key y = key x := by simpa using List.find?_some hf
    exact ⟨y, mem_distinct_iff.mpr (hy ▸ hf), hy⟩

/-- Items that differ in their keys are all kept. -/
theorem mem_distinct_iff_mem {x : α} (hkey : ∀ y ∈ items, key y = key x → y = x) :
    x ∈ distinct key items ↔ x ∈ items := by
  refine ⟨mem_of_mem_distinct, fun h => ?_⟩
  obtain ⟨y, hy, hk⟩ := exists_mem_distinct key h
  exact hkey y (mem_of_mem_distinct hy) hk ▸ hy

omit [DecidableEq κ] in
theorem mem_distinct_id_iff {names : List κ} {x : κ} : x ∈ distinct id names ↔ x ∈ names := by
  classical
  exact mem_distinct_iff_mem fun _ _ h => h

theorem pairwise_distinct (key : α → κ) (items : List α) :
    (distinct key items).Pairwise fun a b => key a < key b := by
  rw [distinct, List.pairwise_map]
  refine List.Pairwise.imp_of_mem (fun {a b} ha hb hab => ?_) (ascending_ofList _ _)
  have hkey : ∀ p : κ × α, items.find? (key · = p.1) = some p.2 → key p.2 = p.1 := fun p h => by
    simpa using List.find?_some h
  rw [hkey a (mem_ofList_first_iff.mp ha), hkey b (mem_ofList_first_iff.mp hb)]
  exact hab

end Distinct

end QueryGrammar.Keyed
