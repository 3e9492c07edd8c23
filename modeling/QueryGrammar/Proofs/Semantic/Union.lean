import QueryGrammar.Proofs.Semantic.Rendered
/-!
Merging as the union of siblings. Whether it succeeds and what it gives depend only on which nodes
there are: on no order, no repetition and no intermediate result. It is refused for the first head,
in the order of written forms, that must not be repeated and heads two different nodes; since the
nodes of one head stand together in this order, it makes no difference which of them are compared.
-/
namespace QueryGrammar.Vocabulary

/-- Two different nodes have this head, which must not be repeated among siblings. -/
def Clashes (v : Vocabulary) (nodes : List Node) (id : SemanticId) : Prop :=
  (∃ d, v.get? id = some d ∧ d.forbidsMultiple = true) ∧
    ∃ a ∈ nodes, ∃ b ∈ nodes, a ≠ b ∧ a.semantic = id ∧ b.semantic = id

/-- The head clashes, and the nodes of every other head that does are written after its nodes. -/
structure FirstClash (v : Vocabulary) (nodes : List Node) (id : SemanticId) : Prop where
  clashes : v.Clashes nodes id
  first : ∀ other, v.Clashes nodes other → other ≠ id → ∀ a ∈ nodes, ∀ b ∈ nodes,
    a.semantic = id → b.semantic = other → v.renderNode a < v.renderNode b

variable {v : Vocabulary} {nodes others forest : List Node}

theorem Composing.grown {obtained : List Forest} (h : Composing v obtained) : v.Grown := by
  induction h with
  | start => exact .start
  | register _ registered ih => exact ih.register registered
  | leaf _ _ ih => exact ih
  | reduce _ _ _ ih => exact ih
  | merge _ _ _ _ ih => exact ih
  | applyChain _ _ _ ih => exact ih

/-! ### The order of heads -/

/-- Two texts compare as their beginnings do, where a beginning that the other one continues is the
whole text. -/
theorem append_lt_append_iff {p q x y : List Char} (hne : p ≠ q) (hx : p <+: q → x = [])
    (hy : q <+: p → y = []) : p ++ x < q ++ y ↔ p < q := by
  induction p generalizing q with
  | nil =>
    obtain ⟨c, q, rfl⟩ := List.exists_cons_of_ne_nil hne.symm
    rw [hx List.nil_prefix]
    simp
  | cons c p ih =>
    cases q with
    | nil =>
      rw [hy List.nil_prefix]
      simp
    | cons d q =>
      simp only [List.cons_append, List.cons_lt_cons_iff]
      refine or_congr_right (and_congr_right fun hcd => ?_)
      subst hcd
      exact ih (fun h => hne (congrArg _ h)) (fun h => hx (List.cons_prefix_cons.mpr ⟨rfl, h⟩))
        fun h => hy (List.cons_prefix_cons.mpr ⟨rfl, h⟩)

/-- What the nodes of a head start with: its name, and the parenthesis that opens the children of a
function. -/
def stem (v : Vocabulary) (id : SemanticId) : List Char :=
  (v.name id).toList ++ if (v.get? id).any (·.isArg) then [] else ['(']

theorem exists_toList_renderNode {n : Node} (hn : v.Bounded n) :
    ∃ rest, (v.renderNode n).toList = v.stem n.semantic ++ rest ∧
      ((v.get? n.semantic).any (·.isArg) = true → rest = []) := by
  obtain ⟨s, children⟩ := n
  obtain ⟨d, hd, hargument, -⟩ := hn
  rw [toList_renderNode]
  cases hkind : d.isArg with
  | true =>
    have hchildren : children = [] := hargument hkind
    exact ⟨[], by simp_all [stem, ending, Node.semantic], fun _ => rfl⟩
  | false =>
    refine ⟨(v.render children).toList ++ [')'], by simp_all [stem, ending, Node.semantic], ?_⟩
    simp_all [Node.semantic]

theorem isPartChar_head_opening (id : SemanticId) :
    ∀ c ∈ (if (v.get? id).any (·.isArg) then [] else ['(']).head?, Name.isPartChar c = false := by
  split <;> simp [Name.isPartChar]

theorem Bounded.registered {n : Node} (hn : v.Bounded n) : v.Registered n.semantic := by
  obtain ⟨d, hd, -⟩ := hn
  exact registered_of_get? hd

section Heads

variable (hv : v.Grown)
include hv

theorem stem_inj {s t : SemanticId} (hs : v.Registered s) (ht : v.Registered t)
    (h : v.stem s = v.stem t) : s = t :=
  (name_append_inj hv hs ht (isPartChar_head_opening s) (isPartChar_head_opening t) h).1

/-- Only an argument is written as the beginning of a node with another head. -/
theorem isArg_of_stem_isPrefix {s t : SemanticId} (hs : v.Registered s) (ht : v.Registered t)
    (hne : s ≠ t) (h : v.stem s <+: v.stem t) : (v.get? s).any (·.isArg) = true := by
  by_contra hfunction
  obtain ⟨x, hx⟩ := h
  rw [stem, stem, if_neg hfunction, List.append_assoc] at hx
  have hopen : ∀ c ∈ (['('] ++ x).head?, Name.isPartChar c = false := by simp [Name.isPartChar]
  exact hne (name_append_inj hv hs ht hopen (isPartChar_head_opening t) hx).1

/-- Nodes of different heads are in the order of their heads, whatever their children are. -/
theorem renderNode_lt_iff {a b : Node} (ha : v.Bounded a) (hb : v.Bounded b)
    (hne : a.semantic ≠ b.semantic) :
    v.renderNode a < v.renderNode b ↔ v.stem a.semantic < v.stem b.semantic := by
  obtain ⟨x, hax, hx⟩ := exists_toList_renderNode ha
  obtain ⟨y, hby, hy⟩ := exists_toList_renderNode hb
  rw [String.lt_iff_toList_lt, hax, hby]
  -- The stem of one head starts the stem of another only for an argument, after which nothing is
  -- written.
  apply append_lt_append_iff
  · exact fun h => hne (stem_inj hv ha.registered hb.registered h)
  · exact fun h => hx (isArg_of_stem_isPrefix hv ha.registered hb.registered hne h)
  · exact fun h => hy (isArg_of_stem_isPrefix hv hb.registered ha.registered hne.symm h)

end Heads

/-! ### What the check finds -/

theorem Clashes.congr (hmem : ∀ n, n ∈ nodes ↔ n ∈ others) {id : SemanticId} :
    v.Clashes nodes id ↔ v.Clashes others id := by
  simp only [Clashes, hmem]

theorem FirstClash.congr (hmem : ∀ n, n ∈ nodes ↔ n ∈ others) {id : SemanticId} :
    v.FirstClash nodes id ↔ v.FirstClash others id := by
  have hclashes : ∀ other, v.Clashes nodes other ↔ v.Clashes others other :=
    fun _ => Clashes.congr hmem
  constructor
  · rintro ⟨hid, hfirst⟩
    exact ⟨(hclashes id).mp hid, by simpa only [hclashes, hmem] using hfirst⟩
  · rintro ⟨hid, hfirst⟩
    exact ⟨(hclashes id).mpr hid, by simpa only [hclashes, hmem] using hfirst⟩

theorem Clashes.mono (hsubset : ∀ n ∈ nodes, n ∈ others) {id : SemanticId}
    (h : v.Clashes nodes id) : v.Clashes others id := by
  obtain ⟨hforbids, a, ha, b, hb, hne, hheads⟩ := h
  exact ⟨hforbids, a, hsubset a ha, b, hsubset b hb, hne, hheads⟩

theorem not_clashes_of_pairwise (h : nodes.Pairwise v.MayMeet) (id : SemanticId) :
    ¬ v.Clashes nodes id := by
  rintro ⟨⟨d, hd, hforbids⟩, a, ha, b, hb, hne, rfl, hheads⟩
  have : Std.Symm v.MayMeet := ⟨fun a b hab heads => heads ▸ hab heads.symm⟩
  have hallows := h.forall ha hb hne hheads.symm d hd
  simp [hforbids] at hallows

theorem checkSoleHeads_cons {seen : List SemanticId} {n : Node} {d : Semantic}
    (hd : v.get? n.semantic = some d) : v.checkSoleHeads seen (n :: nodes) =
      if d.forbidsMultiple = true then
        if n.semantic ∈ seen then .error (.forbiddenMultiple d.name)
        else v.checkSoleHeads (n.semantic :: seen) nodes
      else v.checkSoleHeads seen nodes := by
  rw [checkSoleHeads, definition_eq_ok_iff.mpr hd]
  rfl

/-- The check stops at the first node whose head must not be repeated and was met before. -/
theorem exists_of_checkSoleHeads_error {seen : List SemanticId} {e : BuildError}
    (hnodes : ∀ n ∈ nodes, v.Bounded n) (h : v.checkSoleHeads seen nodes = .error e) :
    ∃ before n after d, nodes = before ++ n :: after ∧ v.checkSoleHeads seen before = .ok () ∧
      v.get? n.semantic = some d ∧ d.forbidsMultiple = true ∧
      (n.semantic ∈ seen ∨ ∃ m ∈ before, m.semantic = n.semantic) ∧
      e = .forbiddenMultiple d.name := by
  induction nodes generalizing seen with
  | nil => cases h
  | cons n nodes ih =>
    rw [List.forall_mem_cons] at hnodes
    obtain ⟨⟨k, hk, -⟩, hrest⟩ := hnodes
    rw [checkSoleHeads_cons hk] at h
    split at h
    next hforbids =>
      split at h
      next hseen =>
        cases h
        exact ⟨[], n, nodes, k, rfl, rfl, hk, hforbids, .inl hseen, rfl⟩
      next hnew =>
        obtain ⟨before, m, after, d, rfl, hbefore, hd, hm, hmet, rfl⟩ := ih hrest h
        refine ⟨n :: before, m, after, d, rfl, ?_, hd, hm, ?_, rfl⟩
        · rw [checkSoleHeads_cons hk, if_pos hforbids, if_neg hnew]
          exact hbefore
        · rcases hmet with hmet | ⟨l, hl, hlm⟩
          · rcases List.mem_cons.mp hmet with hmn | hmet
            · exact .inr ⟨n, List.mem_cons_self, hmn.symm⟩
            · exact .inl hmet
          · exact .inr ⟨l, List.mem_cons_of_mem n hl, hlm⟩
    next hallows =>
      obtain ⟨before, m, after, d, rfl, hbefore, hd, hm, hmet, rfl⟩ := ih hrest h
      refine ⟨n :: before, m, after, d, rfl, ?_, hd, hm, ?_, rfl⟩
      · rw [checkSoleHeads_cons hk, if_neg hallows]
        exact hbefore
      · exact hmet.imp_right fun ⟨l, hl, hlm⟩ => ⟨l, List.mem_cons_of_mem n hl, hlm⟩

/-- In the order of written forms all nodes of a smaller head stand first. -/
theorem mem_before_of_stem_lt (hv : v.Grown) {before after : List Node} {n z : Node}
    (hascending : (before ++ n :: after).Pairwise fun a b => v.renderNode a < v.renderNode b)
    (hnodes : ∀ m ∈ before ++ n :: after, v.Bounded m) (hz : z ∈ before ++ n :: after)
    (hlt : v.stem z.semantic < v.stem n.semantic) : z ∈ before := by
  have hne : z.semantic ≠ n.semantic := fun h => lt_irrefl _ (h ▸ hlt)
  have hzn : v.renderNode z < v.renderNode n :=
    (renderNode_lt_iff hv (hnodes z hz) (hnodes n (by simp)) hne).mpr hlt
  obtain ⟨-, hlast, -⟩ := List.pairwise_append.mp hascending
  rcases List.mem_append.mp hz with hz | hz
  · exact hz
  · rcases List.mem_cons.mp hz with rfl | hz
    · exact absurd rfl hne
    · exact absurd hzn (String.lt_asymm ((List.pairwise_cons.mp hlast).1 z hz))

/-- In the order of written forms the check stops at the first head that clashes. -/
theorem exists_firstClash_of_checkSoleHeads_error (hv : v.Grown) {e : BuildError}
    (hascending : nodes.Pairwise fun a b => v.renderNode a < v.renderNode b)
    (hnodes : ∀ n ∈ nodes, v.Bounded n) (h : v.checkSoleHeads [] nodes = .error e) :
    ∃ id, v.FirstClash nodes id ∧ e = .forbiddenMultiple (v.name id) := by
  obtain ⟨before, n, after, d, rfl, hbefore, hd, hforbids, hmet, rfl⟩ :=
    exists_of_checkSoleHeads_error hnodes h
  have hmet : ∃ m ∈ before, m.semantic = n.semantic := by simpa using hmet
  obtain ⟨m, hm, hmn⟩ := hmet
  obtain ⟨-, -, hbelow⟩ := List.pairwise_append.mp hascending
  have hclashes : v.Clashes (before ++ n :: after) n.semantic := by
    refine ⟨⟨d, hd, hforbids⟩, m, by simp [hm], n, by simp, ?_, hmn, rfl⟩
    rintro rfl
    exact String.lt_irrefl _ (hbelow m hm m List.mem_cons_self)
  refine ⟨n.semantic, ⟨hclashes, ?_⟩, by rw [name_of_get? hd]⟩
  intro other hother hne a ha b hb hheads hheads'
  obtain ⟨hrepeats, x, hx, y, hy, hxy, rfl, hyx⟩ := hother
  have hapart : a.semantic ≠ b.semantic := by simp [hheads, hheads', hne.symm]
  rw [renderNode_lt_iff hv (hnodes a ha) (hnodes b hb) hapart, hheads, hheads']
  by_contra hnot
  have hstem : v.stem x.semantic < v.stem n.semantic := by
    rcases lt_trichotomy (v.stem n.semantic) (v.stem x.semantic) with h | h | h
    · exact absurd h hnot
    · exact absurd (stem_inj hv (hnodes n (by simp)).registered (hnodes x hx).registered h) hne.symm
    · exact h
  -- Then all nodes of the other head stand before the one that the check has stopped at.
  have hearlier : ∀ z ∈ before ++ n :: after, z.semantic = x.semantic → z ∈ before :=
    fun z hz hzx => mem_before_of_stem_lt hv hascending hnodes hz (hzx ▸ hstem)
  exact not_clashes_of_pairwise (soleHeads_of_checkSoleHeads hbefore).2 x.semantic
    ⟨hrepeats, x, hearlier x hx rfl, y, hearlier y hy hyx, hxy, rfl, hyx⟩

theorem FirstClash.unique {id other : SemanticId} (h : v.FirstClash nodes id)
    (hother : v.FirstClash nodes other) : id = other := by
  by_contra hne
  obtain ⟨-, a, ha, -, -, -, hheads, -⟩ := h.clashes
  obtain ⟨-, b, hb, -, -, -, hheads', -⟩ := hother.clashes
  exact String.lt_asymm (h.first other hother.clashes (Ne.symm hne) a ha b hb hheads hheads')
    (hother.first id h.clashes hne b hb a ha hheads' hheads)

/-! ### Composed nodes -/

/-- Each node has the children that it may have, and so at every level below. -/
def Composed (v : Vocabulary) (nodes : List Node) : Prop :=
  ∀ n ∈ nodes, v.Bounded n ∧ v.Canonical n.children

theorem Canonical.composed (h : v.Canonical nodes) : v.Composed nodes :=
  fun n hn => ⟨h.bounded n hn, h.children n hn⟩

namespace Composed

theorem append (h : v.Composed nodes) (hothers : v.Composed others) :
    v.Composed (nodes ++ others) :=
  fun n hn => (List.mem_append.mp hn).elim (h n) (hothers n)

theorem subset (h : v.Composed nodes) (hsubset : ∀ n ∈ others, n ∈ nodes) : v.Composed others :=
  fun n hn => h n (hsubset n hn)

theorem registered (h : v.Composed nodes) : ∀ id ∈ Node.forestIds nodes, v.Registered id := by
  intro id hid
  obtain ⟨⟨s, children⟩, hn, hid⟩ := Node.mem_forestIds_iff.mp hid
  obtain ⟨hbounded, hchildren⟩ := h _ hn
  rw [Node.ids] at hid
  rcases List.mem_cons.mp hid with rfl | hid
  · exact hbounded.registered
  · exact hchildren.registered id hid

section Union

variable (hv : v.Grown)
include hv

theorem mem_distinct_iff (h : v.Composed nodes) {n : Node} :
    n ∈ Keyed.distinct v.renderNode nodes ↔ n ∈ nodes :=
  mem_distinct_renderNode_iff hv h.registered

/-- Neither the order of the nodes nor their repetition shows in what becomes of them. -/
theorem canonical_congr (h : v.Composed nodes) (hmem : ∀ n, n ∈ nodes ↔ n ∈ others) :
    v.canonical nodes = v.canonical others := by
  have hothers : v.Composed others := h.subset fun n => (hmem n).mpr
  have hdistinct : Keyed.distinct v.renderNode nodes = Keyed.distinct v.renderNode others := by
    apply Keyed.eq_of_pairwise_of_mem_iff v.renderNode (Keyed.pairwise_distinct _ _)
      (Keyed.pairwise_distinct _ _)
    intro n
    rw [h.mem_distinct_iff hv, hothers.mem_distinct_iff hv, hmem]
  rw [canonical, canonical, hdistinct]

/-- The nodes pass the check if no head clashes; else they are refused for the first that does. -/
theorem canonical_cases (h : v.Composed nodes) :
    (v.canonical nodes = .ok (Keyed.distinct v.renderNode nodes) ∧ ∀ id, ¬ v.Clashes nodes id) ∨
      ∃ id, v.FirstClash nodes id ∧
        v.canonical nodes = .error (.forbiddenMultiple (v.name id)) := by
  have hmem : ∀ n, n ∈ Keyed.distinct v.renderNode nodes ↔ n ∈ nodes :=
    fun _ => h.mem_distinct_iff hv
  rw [canonical]
  cases hcheck : v.checkSoleHeads [] (Keyed.distinct v.renderNode nodes) with
  | ok u =>
    refine .inl ⟨rfl, fun id hid => ?_⟩
    exact not_clashes_of_pairwise (soleHeads_of_checkSoleHeads hcheck).2 id
      ((Clashes.congr hmem).mpr hid)
  | error e =>
    obtain ⟨id, hfirst, rfl⟩ := exists_firstClash_of_checkSoleHeads_error hv
      (Keyed.pairwise_distinct _ _) (fun n hn => (h n ((hmem n).mp hn)).1) hcheck
    exact .inr ⟨id, (FirstClash.congr hmem).mp hfirst, rfl⟩

theorem canonical_eq_ok_iff (h : v.Composed nodes) : v.canonical nodes = .ok forest ↔
    (∀ id, ¬ v.Clashes nodes id) ∧ forest = Keyed.distinct v.renderNode nodes := by
  rcases h.canonical_cases hv with ⟨hcanonical, hnone⟩ | ⟨id, hfirst, hcanonical⟩
  · rw [hcanonical]
    exact ⟨fun heq => ⟨hnone, (Except.ok.inj heq).symm⟩, fun heq => by rw [heq.2]⟩
  · rw [hcanonical]
    exact iff_of_false nofun fun heq => heq.1 id hfirst.clashes

theorem canonical_eq_error_iff (h : v.Composed nodes) {e : BuildError} :
    v.canonical nodes = .error e ↔
      ∃ id, v.FirstClash nodes id ∧ e = .forbiddenMultiple (v.name id) := by
  rcases h.canonical_cases hv with ⟨hcanonical, hnone⟩ | ⟨id, hfirst, hcanonical⟩
  · rw [hcanonical]
    exact iff_of_false nofun fun ⟨id, hfirst, _⟩ => hnone id hfirst.clashes
  · rw [hcanonical]
    constructor
    · intro heq
      exact ⟨id, hfirst, (Except.error.inj heq).symm⟩
    · rintro ⟨other, hother, rfl⟩
      rw [hfirst.unique hother]

theorem mem_of_canonical (h : v.Composed nodes) (hcanonical : v.canonical nodes = .ok forest)
    {n : Node} : n ∈ forest ↔ n ∈ nodes := by
  obtain ⟨-, rfl⟩ := (h.canonical_eq_ok_iff hv).mp hcanonical
  exact h.mem_distinct_iff hv

/-! ### Merging -/

variable {a b c : Forest}

/-- Nothing is lost by merging in two steps: where all three may stand together, two of them may. -/
theorem merge_merge_eq_ok_iff (ha : v.Composed a) (hb : v.Composed b) (hc : v.Composed c) :
    (v.merge a b >>= fun ab => v.merge ab c) = .ok forest ↔
      v.canonical (a ++ b ++ c) = .ok forest := by
  have hab : v.Composed (a ++ b) := ha.append hb
  have hsecond : ∀ ab, v.merge a b = .ok ab → v.merge ab c = v.canonical (a ++ b ++ c) := by
    intro ab hmerge
    refine ((hab.append hc).canonical_congr hv fun n => ?_).symm
    rw [List.mem_append, List.mem_append (s := ab), hab.mem_of_canonical hv hmerge]
  rw [Outcome.bind_eq_ok_iff]
  constructor
  · rintro ⟨ab, hmerge, h⟩
    exact hsecond ab hmerge ▸ h
  · intro h
    have hnone : ∀ id, ¬ v.Clashes (a ++ b) id := fun id hid =>
      (((hab.append hc).canonical_eq_ok_iff hv).mp h).1 id
        (hid.mono fun n => List.mem_append_left c)
    have hmerge := (hab.canonical_eq_ok_iff hv).mpr ⟨hnone, rfl⟩
    exact ⟨_, hmerge, (hsecond _ hmerge).trans h⟩

end Union

end Composed

/-- Composed siblings are what becomes of their nodes. -/
theorem Canonical.canonical_eq (h : v.Canonical forest) (hv : v.Grown)
    (hmem : ∀ n, n ∈ nodes ↔ n ∈ forest) : v.canonical nodes = .ok forest := by
  have hnodes : v.Composed nodes := h.composed.subset fun n => (hmem n).mp
  refine (hnodes.canonical_eq_ok_iff hv).mpr ⟨fun id hid => ?_, ?_⟩
  · exact not_clashes_of_pairwise h.soleHeads id ((Clashes.congr hmem).mp hid)
  · apply Keyed.eq_of_pairwise_of_mem_iff v.renderNode h.ascending (Keyed.pairwise_distinct _ _)
    intro n
    rw [hnodes.mem_distinct_iff hv, hmem]

/-- Merging composed trees is a union. It is commutative with its refusals, idempotent and has the
empty tree as its unit; whether three trees merge, and what they merge to, does not depend on which
two are merged first; the result holds the nodes of both trees and no other; and two trees are
refused exactly for the first head that clashes. -/
theorem Composing.merge_union {obtained : List Forest} (h : Composing v obtained) {a b c : Forest}
    (ha : a ∈ obtained) (hb : b ∈ obtained) (hc : c ∈ obtained) :
    v.merge a b = v.merge b a ∧ v.merge a a = .ok a ∧ v.merge a [] = .ok a ∧
    (∀ forest, (v.merge a b >>= fun ab => v.merge ab c) = .ok forest ↔
      (v.merge b c >>= fun bc => v.merge bc a) = .ok forest) ∧
    (∀ forest, v.merge a b = .ok forest → forest.Nodup ∧ ∀ n, n ∈ forest ↔ n ∈ a ∨ n ∈ b) ∧
    ((∃ forest, v.merge a b = .ok forest) ↔ ∀ id, ¬ v.Clashes (a ++ b) id) ∧
    ∀ e, v.merge a b = .error e ↔
      ∃ id, v.FirstClash (a ++ b) id ∧ e = .forbiddenMultiple (v.name id) := by
  have hv := h.grown
  have hcanonical := canonical_of_composing h
  have hcomposed : ∀ forest ∈ obtained, v.Composed forest :=
    fun forest hforest => (hcanonical forest hforest).composed
  have hab : v.Composed (a ++ b) := (hcomposed a ha).append (hcomposed b hb)
  refine ⟨?_, ?_, ?_, ?_, ?_, ?_, ?_⟩
  · exact hab.canonical_congr hv fun n => by simp [or_comm]
  · exact (hcanonical a ha).canonical_eq hv fun n => by simp
  · exact (hcanonical a ha).canonical_eq hv fun n => by simp
  · intro forest
    have hturned : v.canonical (a ++ b ++ c) = v.canonical (b ++ c ++ a) :=
      (hab.append (hcomposed c hc)).canonical_congr hv fun n => by
        simp only [List.mem_append]
        tauto
    rw [Composed.merge_merge_eq_ok_iff hv (hcomposed a ha) (hcomposed b hb) (hcomposed c hc),
      Composed.merge_merge_eq_ok_iff hv (hcomposed b hb) (hcomposed c hc) (hcomposed a ha), hturned]
  · intro forest hmerge
    obtain ⟨-, rfl⟩ := (hab.canonical_eq_ok_iff hv).mp hmerge
    refine ⟨(Keyed.pairwise_distinct _ _).imp fun {x y} hxy heq => ?_, fun n => ?_⟩
    · exact String.lt_irrefl _ (heq ▸ hxy)
    · rw [hab.mem_distinct_iff hv, List.mem_append]
  · constructor
    · rintro ⟨forest, hmerge⟩
      exact ((hab.canonical_eq_ok_iff hv).mp hmerge).1
    · exact fun hnone => ⟨_, (hab.canonical_eq_ok_iff hv).mpr ⟨hnone, rfl⟩⟩
  · exact fun e => hab.canonical_eq_error_iff hv

theorem Grown.composing (hv : v.Grown) : Composing v [[]] := by
  induction hv with
  | start => exact .start
  | register _ registered ih => exact ih.register registered

/-- The trees `me`, `not(me)` and `not(followed-by(me))`, of which the last two clash. -/
theorem merge_union_followers : ∃ obtained, Composing followers obtained ∧
    [.mk ⟨0⟩ []] ∈ obtained ∧ [.mk ⟨2⟩ [.mk ⟨0⟩ []]] ∈ obtained ∧
    [.mk ⟨2⟩ [.mk ⟨1⟩ [.mk ⟨0⟩ []]]] ∈ obtained ∧
    followers.merge [.mk ⟨0⟩ []] [.mk ⟨2⟩ [.mk ⟨0⟩ []]] =
      followers.merge [.mk ⟨2⟩ [.mk ⟨0⟩ []]] [.mk ⟨0⟩ []] ∧
    followers.FirstClash [.mk ⟨2⟩ [.mk ⟨0⟩ []], .mk ⟨2⟩ [.mk ⟨1⟩ [.mk ⟨0⟩ []]]] ⟨2⟩ ∧
    ∀ forest, (followers.merge [.mk ⟨0⟩ []] [.mk ⟨2⟩ [.mk ⟨0⟩ []]] >>= fun both =>
      followers.merge both [.mk ⟨2⟩ [.mk ⟨1⟩ [.mk ⟨0⟩ []]]]) ≠ .ok forest := by
  have hme : Composing followers [[.mk ⟨0⟩ []], []] := grown_followers.composing.leaf
    (show followers.leaf ⟨0⟩ = .ok [.mk ⟨0⟩ []] from rfl)
  have hnotMe : Composing followers [[.mk ⟨2⟩ [.mk ⟨0⟩ []]], [.mk ⟨0⟩ []], []] :=
    hme.reduce List.mem_cons_self (show followers.reduce ⟨2⟩ [.mk ⟨0⟩ []] = .ok _ from rfl)
  have hall : Composing followers
      [[.mk ⟨2⟩ [.mk ⟨1⟩ [.mk ⟨0⟩ []]]], [.mk ⟨2⟩ [.mk ⟨0⟩ []]], [.mk ⟨0⟩ []], []] :=
    hnotMe.applyChain (List.mem_cons_of_mem _ List.mem_cons_self)
      (show followers.applyChain [⟨2⟩, ⟨1⟩] [.mk ⟨0⟩ []] = .ok _ from rfl)
  have hrefused : followers.merge [.mk ⟨2⟩ [.mk ⟨0⟩ []]] [.mk ⟨2⟩ [.mk ⟨1⟩ [.mk ⟨0⟩ []]]] =
      .error (.forbiddenMultiple "not") := rfl
  obtain ⟨hcomm, -, -, hassoc, -⟩ := hall.merge_union (a := [.mk ⟨0⟩ []])
    (b := [.mk ⟨2⟩ [.mk ⟨0⟩ []]]) (c := [.mk ⟨2⟩ [.mk ⟨1⟩ [.mk ⟨0⟩ []]]])
    (by simp) (by simp) (by simp)
  obtain ⟨-, -, -, -, -, -, herror⟩ := hall.merge_union (a := [.mk ⟨2⟩ [.mk ⟨0⟩ []]])
    (b := [.mk ⟨2⟩ [.mk ⟨1⟩ [.mk ⟨0⟩ []]]]) (c := []) (by simp) (by simp) (by simp)
  obtain ⟨id, hfirst, hname⟩ := (herror _).mp hrefused
  refine ⟨_, hall, by simp, by simp, by simp, hcomm, ?_, fun forest h => ?_⟩
  · obtain ⟨-, n, hn, -, -, -, hheads, -⟩ := hfirst.clashes
    obtain rfl : id = ⟨2⟩ := by
      rw [← hheads]
      rcases List.mem_pair.mp hn with rfl | rfl <;> rfl
    exact hfirst
  · have hmerge := (hassoc forest).mp h
    rw [hrefused] at hmerge
    cases hmerge

end QueryGrammar.Vocabulary
