import QueryGrammar.Proofs.Json.Decoded
/-!
Decoding with more levels. The levels only bound how deep a decoder goes, so what is decoded within
some is decoded to the same within more. A value that reads as one thing within enough levels can
therefore not be read as another within fewer.
-/
namespace QueryGrammar.Decoder

variable {ι α β : Type}

/-- What is decoded within some levels is decoded to the same within more. -/
def Persists (decode : Nat → ι → Option α) : Prop :=
  ∀ ⦃m n : Nat⦄, m ≤ n → ∀ {i : ι} {a : α}, decode m i = some a → decode n i = some a

/-- A value that reads as `a` within enough levels is never read as anything else. -/
theorem Persists.eq_of_reads {decode : Decoder α} (h : Persists decode) {j : Json} {a b : α}
    (hreads : decode.Reads j a) {levels : Nat} (hb : decode levels j = some b) : b = a := by
  have hmore := h (Nat.le_max_left levels j.depth) hb
  exact Option.some.inj (hmore.symm.trans (hreads _ (Nat.le_max_right ..)))

theorem exists_level {m n : Nat} (h : m + 1 ≤ n) : ∃ k, n = k + 1 ∧ m ≤ k :=
  ⟨n - 1, by omega, by omega⟩

/-! ### Values -/

theorem persists_of_const {decode : Nat → ι → Option α} (h : ∀ m n, decode m = decode n) :
    Persists decode := fun m n _ i _ ha => (congrFun (h n m) i).trans ha

theorem persists_text : Persists text :=
  persists_of_const fun _ _ => funext fun j => by cases j <;> rfl

theorem persists_flag : Persists flag :=
  persists_of_const fun _ _ => funext fun j => by cases j <;> rfl

theorem persists_float : Persists float :=
  persists_of_const fun _ _ => funext fun j => by cases j <;> rfl

theorem natural_const (bound m n : Nat) : natural bound m = natural bound n :=
  funext fun j => by cases j <;> rfl

theorem persists_word32 : Persists word32 :=
  persists_of_const fun m n => by
    unfold word32
    rw [natural_const _ m n]

theorem persists_word64 : Persists word64 :=
  persists_of_const fun m n => by
    unfold word64
    rw [natural_const _ m n]

theorem Persists.map {decode : Nat → ι → Option α} (h : Persists decode) (f : α → β) :
    Persists fun levels i => (decode levels i).map f := by
  intro m n hmn i b hb
  obtain ⟨a, ha, rfl⟩ := Option.map_eq_some_iff.mp hb
  exact congrArg (Option.map f) (h hmn ha)

theorem mapM_of_imp {f g : ι → Option α} (h : ∀ i a, f i = some a → g i = some a) {items : List ι}
    {results : List α} (hf : items.mapM f = some results) : items.mapM g = some results := by
  induction items generalizing results with
  | nil => exact hf
  | cons i is ih =>
    simp only [List.mapM_cons, Option.bind_eq_bind, Option.bind_eq_some_iff] at hf ⊢
    obtain ⟨a, ha, as, has, heq⟩ := hf
    exact ⟨a, h i a ha, as, ih has, heq⟩

theorem Persists.list {item : Decoder α} (h : Persists item) : Persists (Decoder.list item) := by
  intro m n hmn j items hitems
  unfold Decoder.list at hitems
  split at hitems
  · obtain ⟨k, rfl, hk⟩ := exists_level hmn
    exact mapM_of_imp (fun _ _ => h hk) hitems
  · cases hitems

theorem Persists.optional {value : Decoder α} (h : Persists value) :
    Persists (Decoder.optional value) := by
  intro m n hmn j a ha
  unfold Decoder.optional at ha ⊢
  split at ha
  · exact ha
  · exact h.map some hmn ha

theorem Persists.mapDecoder {value : Decoder α} (h : Persists value) :
    Persists (Decoder.map value) := by
  intro m n hmn j a ha
  unfold Decoder.map at ha
  split at ha
  next levels members =>
    obtain ⟨k, rfl, hk⟩ := exists_level hmn
    simp only [Option.bind_eq_bind, Option.bind_eq_some_iff] at ha
    obtain ⟨pairs, hpairs, heq⟩ := ha
    have hmore := mapM_of_imp (g := fun x : Option String × Json => do
        return (← x.1, ← value k x.2)) (fun x pair hpair => ?_) hpairs
    · exact (congrArg (Option.bind · fun pairs => some (SortedMap.ofList pairs)) hmore).trans heq
    · simp only [Option.bind_eq_bind, Option.bind_eq_some_iff] at hpair ⊢
      obtain ⟨name, hname, a, ha, heq⟩ := hpair
      exact ⟨name, hname, a, h hk ha, heq⟩
  · cases ha

theorem bind_of_imp {x y : Option α} {f g : α → Option β} {b : β}
    (h : x.bind f = some b) (hxy : ∀ a, x = some a → y = some a)
    (hfg : ∀ a, f a = some b → g a = some b) : y.bind g = some b := by
  obtain ⟨a, ha, hb⟩ := Option.bind_eq_some_iff.mp h
  exact Option.bind_eq_some_iff.mpr ⟨a, hxy a ha, hfg a hb⟩

/-! ### Members -/

theorem Persists.present {value : Decoder α} (h : Persists value) :
    Persists (Decoder.present value) := by
  rintro m n hmn (_ | j) a ha
  · cases ha
  · exact h hmn ha

theorem Persists.orElse {value : Decoder α} (h : Persists value) (default : α) :
    Persists (Decoder.orElse default value) := by
  rintro m n hmn (_ | j) a ha
  · exact ha
  · exact h hmn ha

theorem Persists.absent {value : Decoder α} (h : Persists value) :
    Persists (Decoder.absent value) := h.optional.orElse none

theorem persists_record {names : List String} {build : Nat → List (Option Json) → Option α}
    (h : Persists build) : Persists (Decoder.record names build) := by
  intro m n hmn j a ha
  unfold Decoder.record at ha
  split at ha
  next levels j =>
    obtain ⟨k, rfl, hk⟩ := exists_level hmn
    exact bind_of_imp ha (fun _ hfields => hfields) fun _ hbuild => h hk hbuild
  · cases ha

theorem persists_tagged {bare : String → Option α} {value : Nat → String → Json → Option α}
    (h : ∀ name, Persists fun levels j => value levels name j) :
    Persists (Decoder.tagged bare value) := by
  intro m n hmn j a ha
  unfold Decoder.tagged at ha
  split at ha
  · exact ha
  next levels name j =>
    obtain ⟨k, rfl, hk⟩ := exists_level hmn
    exact h name hk ha
  · cases ha

theorem persists_tag (ofName : String → Option α) : Persists (Decoder.tag ofName) :=
  persists_tagged fun _ => persists_of_const fun _ _ => rfl

theorem isWhole_of_le {m n : Nat} (hmn : m ≤ n) {j : Json} (h : isWhole m j = true) :
    isWhole n j = true := by
  induction m generalizing n j with
  | zero => cases j <;> simp_all [isWhole]
  | succ m ih =>
    obtain ⟨k, rfl, hk⟩ := exists_level hmn
    have hmore := fun j => ih (j := j) hk
    cases j with
    | array items =>
      simp only [isWhole, List.all_eq_true] at h ⊢
      exact fun x hx => hmore x (h x hx)
    | object members =>
      simp only [isWhole, List.all_eq_true, Bool.and_eq_true] at h ⊢
      exact fun x hx => ⟨(h x hx).1, hmore x.2 (h x hx).2⟩
    | _ => exact h

end QueryGrammar.Decoder
