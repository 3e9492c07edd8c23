/-!
Lists of pairs in strictly ascending order of their keys. Inserting at a key that is present
combines the two values, so the same list serves for counting, for keeping the first of equal
items and for keeping the last. Main statement: `Keyed.ascending_insertWith`.
-/
namespace QueryGrammar.Keyed

variable {κ : Type} {α : Type}

/-- No key occurs twice and each is below those after it. -/
def Ascending [LT κ] (entries : List (κ × α)) : Prop :=
  entries.Pairwise fun a b => a.1 < b.1

/-- Puts a value at its key. Where the key is present, `combine old new` takes its place. -/
def insertWith [LT κ] [DecidableLT κ] (combine : α → α → α) (key : κ) (value : α) :
    List (κ × α) → List (κ × α)
  | [] => [(key, value)]
  | (k, v) :: rest =>
    if key < k then (key, value) :: (k, v) :: rest
    else if k < key then (k, v) :: insertWith combine key value rest
    else (k, combine v value) :: rest

/-- The pairs in ascending order, those of one key combined from left to right. -/
def ofList [LT κ] [DecidableLT κ] (combine : α → α → α) (pairs : List (κ × α)) : List (κ × α) :=
  pairs.foldl (fun entries p => insertWith combine p.1 p.2 entries) []

/-- The items in ascending order of their keys; of several with one key the first is kept. -/
def distinct [LT κ] [DecidableLT κ] (key : α → κ) (items : List α) : List α :=
  (ofList (fun first _ => first) (items.map fun x => (key x, x))).map Prod.snd

def find? [DecidableEq κ] (key : κ) (entries : List (κ × α)) : Option α :=
  (entries.find? (·.1 = key)).map Prod.snd

section Order

variable [LT κ] [DecidableLT κ]

theorem fst_mem_insertWith {combine : α → α → α} {key : κ} {value : α}
    {entries : List (κ × α)} {p : κ × α} (h : p ∈ insertWith combine key value entries) :
    p.1 = key ∨ ∃ q ∈ entries, q.1 = p.1 := by
  induction entries with
  | nil =>
    simp only [insertWith, List.mem_singleton] at h
    exact Or.inl (congrArg Prod.fst h)
  | cons e rest ih =>
    simp only [insertWith] at h
    split at h
    · rcases List.mem_cons.mp h with rfl | h
      · exact Or.inl rfl
      · exact Or.inr ⟨p, h, rfl⟩
    · split at h
      · rcases List.mem_cons.mp h with rfl | h
        · exact Or.inr ⟨e, by simp, rfl⟩
        · rcases ih h with h | ⟨q, hq, hqp⟩
          · exact Or.inl h
          · exact Or.inr ⟨q, by simp [hq], hqp⟩
      · rcases List.mem_cons.mp h with rfl | h
        · exact Or.inr ⟨e, by simp, rfl⟩
        · exact Or.inr ⟨p, by simp [h], rfl⟩

theorem ascending_insertWith [Trans (α := κ) (· < ·) (· < ·) (· < ·)] (combine : α → α → α)
    (key : κ) (value : α) {entries : List (κ × α)} (h : Ascending entries) :
    Ascending (insertWith combine key value entries) := by
  induction entries with
  | nil => simp [Ascending, insertWith]
  | cons e rest ih =>
    obtain ⟨hhead, htail⟩ := List.pairwise_cons.mp h
    simp only [insertWith]
    split
    next hlt =>
      refine List.pairwise_cons.mpr ⟨fun p hp => ?_, h⟩
      rcases List.mem_cons.mp hp with rfl | hp
      · exact hlt
      · exact Trans.trans hlt (hhead p hp)
    next =>
      split
      next hgt =>
        refine List.pairwise_cons.mpr ⟨fun p hp => ?_, ih htail⟩
        rcases fst_mem_insertWith hp with hkey | ⟨q, hq, hqp⟩
        · rw [hkey]
          exact hgt
        · rw [← hqp]
          exact hhead q hq
      next => exact List.pairwise_cons.mpr ⟨hhead, htail⟩

theorem ascending_ofList [Trans (α := κ) (· < ·) (· < ·) (· < ·)] (combine : α → α → α)
    (pairs : List (κ × α)) : Ascending (ofList combine pairs) := by
  suffices ∀ entries : List (κ × α), Ascending entries →
      Ascending (pairs.foldl (fun es p => insertWith combine p.1 p.2 es) entries) from
    this [] List.Pairwise.nil
  induction pairs with
  | nil => exact fun _ h => h
  | cons p pairs ih => exact fun entries h => ih _ (ascending_insertWith combine p.1 p.2 h)

end Order

end QueryGrammar.Keyed
