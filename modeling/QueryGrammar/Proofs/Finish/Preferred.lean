import QueryGrammar.Proofs.Finish.CandidateKey
import QueryGrammar.Proofs.Finish.Ranked
/-!
The preference among candidates. Cost, size and key rank them, and the rank tells any two apart that
differ in cost, text, semantics or derivation, with one exception: a candidate without semantics and
one with an empty tree of them have one key. The one that is tried first is kept, so among candidates
of the best rank the order of trying shows exactly where there are such twins.
-/
namespace QueryGrammar

namespace Provenance

/-- The number of nodes. -/
def count : Provenance → Nat
  | mk _ _ children => counts children + 1
where
  counts : List Provenance → Nat
    | [] => 0
    | t :: ts => count t + counts ts

theorem foldl_count (ts : List Provenance) (start : Nat) :
    (ts.map count).foldl (· + ·) start = count.counts ts + start := by
  induction ts generalizing start with
  | nil => simp [count.counts]
  | cons t ts ih =>
    rw [List.map_cons, List.foldl_cons, ih, count.counts]
    omega

end Provenance

namespace Candidate

variable {v : Vocabulary} {a b c : Candidate} {cs : List Candidate}

/-! ### Telling candidates apart -/

/-- The candidates differ in nothing that is told of them. -/
structure Same (a b : Candidate) : Prop where
  cost : (a.cost == b.cost) = true
  text : a.text = b.text
  semantic : a.semantic = b.semantic
  tree : a.tree = b.tree

/-- The candidates differ in that one has no semantics and the other an empty tree of them. -/
structure Twins (a b : Candidate) : Prop where
  cost : (a.cost == b.cost) = true
  text : a.text = b.text
  semantic : a.semantic = none ∧ b.semantic = some [] ∨ a.semantic = some [] ∧ b.semantic = none
  tree : a.tree = b.tree

/-- A candidate whose size and key are those of its parts. -/
structure Made (v : Vocabulary) (c : Candidate) : Prop where
  cost : Cost.Nonnegative c.cost
  semantic : Draft.Within v.Registered c.semantic
  size : c.size = c.tree.count
  key : c.key = keyOf v c.text c.semantic c.tree

theorem Made.registered (h : c.Made v) : ∀ id ∈ Node.forestIds (c.semantic.getD []), v.Registered id := by
  cases hsemantic : c.semantic with
  | none => simp [Node.forestIds]
  | some forest => exact h.semantic forest hsemantic

theorem getD_nil_eq_iff {f g : Option Forest} : f.getD [] = g.getD [] ↔
    f = g ∨ f = none ∧ g = some [] ∨ f = some [] ∧ g = none := by
  cases f <;> cases g <;> simp [eq_comm]

section Ranks

variable (ha : a.Made v) (hb : b.Made v)
include ha hb

theorem Made.isBetter_iff : a.isBetter b = true ↔ a.rank < b.rank :=
  Candidate.isBetter_iff ha.cost hb.cost

/-- Only twins share a rank without being the same. -/
theorem Made.rank_eq_iff (hv : v.Grown) : a.rank = b.rank ↔ a.Same b ∨ a.Twins b := by
  have hkey : a.key = b.key ↔
      a.text = b.text ∧ a.semantic.getD [] = b.semantic.getD [] ∧ a.tree = b.tree := by
    rw [ha.key, hb.key, keyOf_eq_iff hv ha.registered hb.registered]
  have hrank : a.rank = b.rank ↔ (a.cost == b.cost) = true ∧ a.size = b.size ∧ a.key = b.key := by
    rw [Cost.beq_iff_amount ha.cost hb.cost, rank, rank]
    simp
  rw [hrank, hkey, getD_nil_eq_iff]
  constructor
  · rintro ⟨hcost, -, htext, hsemantic | hsemantic, htree⟩
    · exact Or.inl ⟨hcost, htext, hsemantic, htree⟩
    · exact Or.inr ⟨hcost, htext, hsemantic, htree⟩
  · have hsize : a.tree = b.tree → a.size = b.size := fun h => by rw [ha.size, hb.size, h]
    rintro (h | h)
    · exact ⟨h.cost, hsize h.tree, h.text, Or.inl h.semantic, h.tree⟩
    · exact ⟨h.cost, hsize h.tree, h.text, Or.inr h.semantic, h.tree⟩

theorem Made.not_isBetter_iff : a.isBetter b = false ↔ b.rank ≤ a.rank := by
  rw [← Bool.not_eq_true, ha.isBetter_iff hb, not_lt]

/-- Of two candidates that differ exactly one is better, unless they are twins. -/
theorem Made.exactly_one_iff (hv : v.Grown) (hne : ¬ a.Same b) :
    (a.isBetter b = !b.isBetter a) ↔ ¬ a.Twins b := by
  have hrank : a.rank = b.rank ↔ a.Twins b := by simp [ha.rank_eq_iff hb hv, hne]
  rw [← hrank]
  rcases lt_trichotomy a.rank b.rank with h | h | h
  · simp [(ha.isBetter_iff hb).mpr h, (hb.not_isBetter_iff ha).mpr h.le, h.ne]
  · simp [(ha.not_isBetter_iff hb).mpr h.ge, (hb.not_isBetter_iff ha).mpr h.le, h]
  · simp [(ha.not_isBetter_iff hb).mpr h.le, (hb.isBetter_iff ha).mpr h, h.ne']

end Ranks

/-! ### Trying candidates one after another -/

/-- What is kept when a candidate is tried: it replaces only what it is better than. -/
def keep (best : Option Candidate) (c : Candidate) : Option Candidate :=
  if best.all c.isBetter then some c else best

/-- What is kept of candidates that are tried in this order. -/
def winner (cs : List Candidate) : Option Candidate := cs.foldl keep none

theorem foldl_keep_of_least (h : ∀ c ∈ cs, c.isBetter a = false) :
    cs.foldl keep (some a) = some a := by
  induction cs with
  | nil => rfl
  | cons c cs ih =>
    rw [List.forall_mem_cons] at h
    have hkeep : keep (some a) c = some a := by simp [keep, h.1]
    rw [List.foldl_cons, hkeep]
    exact ih h.2

theorem exists_foldl_keep (ha : a.Made v) (hcs : ∀ c ∈ cs, c.Made v) :
    ∃ w ∈ a :: cs, cs.foldl keep (some a) = some w ∧ ∀ c ∈ a :: cs, w.rank ≤ c.rank := by
  induction cs generalizing a with
  | nil => exact ⟨a, by simp, rfl, by simp⟩
  | cons c cs ih =>
    rw [List.forall_mem_cons] at hcs
    rw [List.foldl_cons]
    by_cases hbetter : c.isBetter a = true
    · obtain ⟨w, hw, hfold, hleast⟩ := ih hcs.1 hcs.2
      have hlt := (hcs.1.isBetter_iff ha).mp hbetter
      refine ⟨w, List.mem_cons_of_mem _ hw, by simpa [keep, hbetter] using hfold, ?_⟩
      exact List.forall_mem_cons.mpr ⟨(hleast c (by simp)).trans hlt.le, hleast⟩
    · obtain ⟨w, hw, hfold, hleast⟩ := ih ha hcs.2
      have hle : a.rank ≤ c.rank := not_lt.mp (mt (hcs.1.isBetter_iff ha).mpr hbetter)
      rw [List.forall_mem_cons] at hleast
      refine ⟨w, ?_, by simpa [keep, hbetter] using hfold, ?_⟩
      · exact (List.mem_cons.mp hw).elim (fun h => by simp [h]) fun h => by simp [h]
      · simp only [List.forall_mem_cons]
        exact ⟨hleast.1, hleast.1.trans hle, hleast.2⟩

/-- Of some candidates one of the best rank is kept. -/
theorem exists_winner (hcs : ∀ c ∈ cs, c.Made v) (hne : cs ≠ []) :
    ∃ w ∈ cs, winner cs = some w ∧ ∀ c ∈ cs, w.rank ≤ c.rank := by
  obtain ⟨a, rest, rfl⟩ := List.exists_cons_of_ne_nil hne
  rw [List.forall_mem_cons] at hcs
  exact exists_foldl_keep hcs.1 hcs.2

/-- A candidate that none is better than is kept when it is tried first. -/
theorem exists_perm_winner (ha : a ∈ cs)
    (hleast : ∀ c ∈ cs, c.isBetter a = false) :
    ∃ ds : List Candidate, ds.Perm cs ∧ winner ds = some a := by
  obtain ⟨before, after, rfl⟩ := List.append_of_mem ha
  refine ⟨a :: (before ++ after), List.perm_middle.symm, foldl_keep_of_least fun c hc => ?_⟩
  exact hleast c (by
    rcases List.mem_append.mp hc with hc | hc
    · exact List.mem_append_left _ hc
    · exact List.mem_append_right _ (List.mem_cons_of_mem _ hc))

/-- The order of trying does not show exactly where no twins are among the best. -/
theorem winner_perm_iff (hv : v.Grown) (hcs : ∀ c ∈ cs, c.Made v) :
    (∀ ds : List Candidate, ds.Perm cs → Option.Rel Same (winner ds) (winner cs)) ↔
      ∀ a ∈ cs, ∀ b ∈ cs, a.Twins b → ∃ c ∈ cs, c.isBetter a = true := by
  constructor
  · intro hsame a ha b hb htwins
    by_contra hnone
    have hleast : ∀ c ∈ cs, c.isBetter a = false := by simpa using hnone
    have hrank : a.rank = b.rank := ((hcs a ha).rank_eq_iff (hcs b hb) hv).mpr (Or.inr htwins)
    have hleast' : ∀ c ∈ cs, c.isBetter b = false := fun c hc =>
      ((hcs c hc).not_isBetter_iff (hcs b hb)).mpr
        (hrank ▸ ((hcs c hc).not_isBetter_iff (hcs a ha)).mp (hleast c hc))
    obtain ⟨ds, hds, hwinner⟩ := exists_perm_winner ha hleast
    obtain ⟨es, hes, hwinner'⟩ := exists_perm_winner hb hleast'
    have hfirst : Option.Rel Same (some a) (winner cs) := hwinner ▸ hsame ds hds
    have hsecond : Option.Rel Same (some b) (winner cs) := hwinner' ▸ hsame es hes
    generalize winner cs = w at hfirst hsecond
    cases hfirst with
    | some haw =>
      cases hsecond with
      | some hbw =>
        have hsemantic : a.semantic = b.semantic := haw.semantic.trans hbw.semantic.symm
        rcases htwins.semantic with ⟨h, h'⟩ | ⟨h, h'⟩ <;> simp [h, h'] at hsemantic
  · intro hbest ds hds
    by_cases hne : cs = []
    · subst hne
      rw [List.perm_nil.mp hds]
      exact .none
    · have hmade : ∀ c ∈ ds, c.Made v := fun c hc => hcs c (hds.mem_iff.mp hc)
      obtain ⟨w, hw, hwinner, hleast⟩ := exists_winner hcs hne
      obtain ⟨u, hu, hwinner', hleast'⟩ := exists_winner hmade fun h => hne (by simpa [h] using hds.symm)
      have hucs := hds.mem_iff.mp hu
      have hrank : u.rank = w.rank :=
        le_antisymm (hleast' w (hds.mem_iff.mpr hw)) (hleast u hucs)
      rw [hwinner, hwinner']
      rcases ((hcs u hucs).rank_eq_iff (hcs w hw) hv).mp hrank with hsame | htwins
      · exact .some hsame
      · obtain ⟨c, hc, hbetter⟩ := hbest u hucs w hw htwins
        have hlt := ((hcs c hc).isBetter_iff (hcs u hucs)).mp hbetter
        exact absurd hlt (hleast' c (hds.mem_iff.mpr hc)).not_gt

end Candidate

end QueryGrammar
