import QueryGrammar.Proofs.Semantic.Compose
/-!
What holds of every composed tree, at each of its levels: siblings ascend in their written forms, no
semantic that forbids it heads two of them, arguments have no children, and functions have as many as
their bounds allow. A vocabulary may grow while trees are composed, since growing changes the written
form of no tree that was composed before.
-/
namespace QueryGrammar.Vocabulary

/-- The node has a definition and as many children as it allows. -/
def Bounded (v : Vocabulary) (n : Node) : Prop :=
  ∃ d, v.get? n.semantic = some d ∧ (d.isArg = true → n.children = []) ∧
    (d.isArg = false →
      d.minParams.toNat ≤ n.children.length ∧ n.children.length ≤ d.maxParams.toNat)

/-- Two siblings have different heads, or their head may be repeated. -/
def MayMeet (v : Vocabulary) (a b : Node) : Prop :=
  a.semantic = b.semantic → ∀ d, v.get? a.semantic = some d → d.forbidsMultiple = false

/-- Siblings in canonical form, and so is everything below them. -/
inductive Canonical (v : Vocabulary) : Forest → Prop where
  | intro {forest : Forest} (ascending : forest.Pairwise fun a b => v.renderNode a < v.renderNode b)
      (soleHeads : forest.Pairwise v.MayMeet) (bounded : ∀ n ∈ forest, v.Bounded n)
      (children : ∀ n ∈ forest, Canonical v n.children) : Canonical v forest

/-- A vocabulary that was registered from nothing, and the forests composed on the way: those that
were obtained earlier are kept while definitions are added. -/
inductive Composing : Vocabulary → List Forest → Prop where
  | start : Composing {} [[]]
  | register {v w : Vocabulary} {obtained : List Forest} {definition : Semantic} {id : SemanticId}
      (before : Composing v obtained) (registered : v.register definition = .ok (id, w)) :
      Composing w obtained
  | leaf {v : Vocabulary} {obtained : List Forest} {id : SemanticId} {forest : Forest}
      (before : Composing v obtained) (composed : v.leaf id = .ok forest) :
      Composing v (forest :: obtained)
  | reduce {v : Vocabulary} {obtained : List Forest} {parent : SemanticId} {children forest : Forest}
      (before : Composing v obtained) (held : children ∈ obtained)
      (composed : v.reduce parent children = .ok forest) : Composing v (forest :: obtained)
  | merge {v : Vocabulary} {obtained : List Forest} {a b forest : Forest}
      (before : Composing v obtained) (heldLeft : a ∈ obtained) (heldRight : b ∈ obtained)
      (composed : v.merge a b = .ok forest) : Composing v (forest :: obtained)
  | applyChain {v : Vocabulary} {obtained : List Forest} {chain : Chain} {children forest : Forest}
      (before : Composing v obtained) (held : children ∈ obtained)
      (composed : v.applyChain chain children = .ok forest) : Composing v (forest :: obtained)

variable {v w : Vocabulary} {forest : Forest}

namespace Canonical

theorem ascending (h : v.Canonical forest) :
    forest.Pairwise fun a b => v.renderNode a < v.renderNode b := by
  cases h
  assumption

theorem soleHeads (h : v.Canonical forest) : forest.Pairwise v.MayMeet := by
  cases h
  assumption

theorem bounded (h : v.Canonical forest) : ∀ n ∈ forest, v.Bounded n := by
  cases h
  assumption

theorem children (h : v.Canonical forest) : ∀ n ∈ forest, v.Canonical n.children := by
  cases h
  assumption

end Canonical

theorem definition_eq_ok_iff {id : SemanticId} {d : Semantic} :
    v.definition id = .ok d ↔ v.get? id = some d := by
  unfold definition
  cases v.get? id <;> simp

/-! ### Growing -/

/-- Every definition is kept at its number. -/
def Extends (w v : Vocabulary) : Prop :=
  ∀ id d, v.get? id = some d → w.get? id = some d

theorem extends_of_register {definition : Semantic} {id : SemanticId}
    (h : v.register definition = .ok (id, w)) : w.Extends v := by
  obtain ⟨-, -, -, -, rfl⟩ := register_eq h
  intro id' d hd
  have hlt : id'.index < v.definitions.length := (List.getElem?_eq_some_iff.mp hd).1
  rw [get?, List.getElem?_append_left hlt]
  exact hd

/-- A node of a known semantic is written as before where its children are. -/
theorem Extends.renderNode_mk (h : w.Extends v) {s : SemanticId} {children : List Node} {d : Semantic}
    (hd : v.get? s = some d) (hchildren : w.renderNodes children = v.renderNodes children) :
    w.renderNode (.mk s children) = v.renderNode (.mk s children) := by
  have hname : w.name s = v.name s := by rw [name, name, hd, h s d hd]
  rw [renderNode, renderNode, hchildren, hname, hd, h s d hd]

mutual

theorem Extends.renderNode_eq (h : w.Extends v) : (n : Node) → v.Bounded n →
    v.Canonical n.children → w.renderNode n = v.renderNode n
  | .mk _ children, hbounded, hchildren => by
    obtain ⟨d, hd, -⟩ := hbounded
    exact h.renderNode_mk hd (h.renderNodes_eq children hchildren.bounded hchildren.children)

theorem Extends.renderNodes_eq (h : w.Extends v) : (ns : List Node) → (∀ n ∈ ns, v.Bounded n) →
    (∀ n ∈ ns, v.Canonical n.children) → w.renderNodes ns = v.renderNodes ns
  | [], _, _ => by rw [renderNodes, renderNodes]
  | n :: ns, hbounded, hchildren => by
    rw [renderNodes, renderNodes,
      h.renderNode_eq n (hbounded n List.mem_cons_self) (hchildren n List.mem_cons_self),
      h.renderNodes_eq ns (fun m hm => hbounded m (List.mem_cons_of_mem _ hm))
        fun m hm => hchildren m (List.mem_cons_of_mem _ hm)]

end

theorem Extends.bounded (h : w.Extends v) {n : Node} (hn : v.Bounded n) : w.Bounded n := by
  obtain ⟨d, hd, hargument, hfunction⟩ := hn
  exact ⟨d, h _ _ hd, hargument, hfunction⟩

theorem Extends.mayMeet (h : w.Extends v) {a b : Node} (ha : v.Bounded a) (hab : v.MayMeet a b) :
    w.MayMeet a b := by
  intro heads d hd
  obtain ⟨e, he, -⟩ := ha
  obtain rfl : e = d := Option.some.inj ((h _ _ he).symm.trans hd)
  exact hab heads e he

theorem Extends.canonical (h : w.Extends v) (hforest : v.Canonical forest) : w.Canonical forest := by
  induction hforest with
  | @intro forest ascending soleHeads bounded children ih =>
    have hrender : ∀ n ∈ forest, w.renderNode n = v.renderNode n :=
      fun n hn => h.renderNode_eq n (bounded n hn) (children n hn)
    refine .intro (ascending.imp_of_mem fun {a b} ha hb hab => ?_)
      (soleHeads.imp_of_mem fun {a b} ha _ hab => ?_) ?_ ih
    · rw [hrender a ha, hrender b hb]
      exact hab
    · exact h.mayMeet (bounded a ha) hab
    · exact fun n hn => h.bounded (bounded n hn)

/-! ### Composing -/

theorem canonical_nil : v.Canonical [] :=
  .intro .nil .nil (by simp) (by simp)

theorem canonical_single {n : Node} (hbounded : v.Bounded n) (hchildren : v.Canonical n.children) :
    v.Canonical [n] := by
  refine .intro (List.pairwise_singleton _ _) (List.pairwise_singleton _ _) ?_ ?_
  · intro m hm
    exact List.mem_singleton.mp hm ▸ hbounded
  · intro m hm
    exact List.mem_singleton.mp hm ▸ hchildren

/-- The check finds every head that must not be repeated. -/
theorem soleHeads_of_checkSoleHeads {seen : List SemanticId} {nodes : List Node}
    (h : v.checkSoleHeads seen nodes = .ok ()) :
    (∀ n ∈ nodes, ∀ d, v.get? n.semantic = some d → n.semantic ∈ seen →
      d.forbidsMultiple = false) ∧ nodes.Pairwise v.MayMeet := by
  induction nodes generalizing seen with
  | nil => exact ⟨by simp, .nil⟩
  | cons n nodes ih =>
    rw [checkSoleHeads] at h
    obtain ⟨d, hd, h⟩ := Outcome.ok_of_bind h
    have hget := definition_eq_ok_iff.mp hd
    split at h
    next hforbids =>
      split at h
      · cases h
      next hnew =>
        obtain ⟨hseen, hpairs⟩ := ih h
        refine ⟨?_, List.pairwise_cons.mpr ⟨?_, hpairs⟩⟩
        · intro m hm e he hmem
          rcases List.mem_cons.mp hm with rfl | hm
          · exact absurd hmem hnew
          · exact hseen m hm e he (List.mem_cons_of_mem _ hmem)
        · intro m hm heads e he
          exact hseen m hm e (heads ▸ he) (heads ▸ List.mem_cons_self)
    next hallows =>
      obtain ⟨hseen, hpairs⟩ := ih h
      have hfalse : ∀ e, v.get? n.semantic = some e → e.forbidsMultiple = false := by
        intro e he
        obtain rfl : d = e := Option.some.inj (hget.symm.trans he)
        simpa using hallows
      refine ⟨?_, List.pairwise_cons.mpr ⟨fun m _ _ e he => hfalse e he, hpairs⟩⟩
      intro m hm e he hmem
      rcases List.mem_cons.mp hm with rfl | hm
      · exact hfalse e he
      · exact hseen m hm e he hmem

theorem canonical_leaf {id : SemanticId} (h : v.leaf id = .ok forest) : v.Canonical forest := by
  unfold leaf at h
  simp only [Outcome.bind_eq_ok_iff, Outcome.guard_eq_ok_iff] at h
  obtain ⟨d, hd, hmay, h⟩ := h
  cases h
  refine canonical_single ⟨d, definition_eq_ok_iff.mp hd, fun _ => rfl, fun hfunction => ?_⟩
    canonical_nil
  have hmin : ¬ 0 < d.minParams := fun hpos => hmay (by simp [hfunction, hpos])
  have hzero : d.minParams.toNat = 0 := by
    rw [UInt64.lt_iff_toNat_lt] at hmin
    simpa using hmin
  exact ⟨hzero.le, Nat.zero_le _⟩

theorem Canonical.reduce {parent : SemanticId} {children : Forest} (hchildren : v.Canonical children)
    (h : v.reduce parent children = .ok forest) : v.Canonical forest := by
  unfold Vocabulary.reduce at h
  simp only [Outcome.bind_eq_ok_iff, Outcome.guard_eq_ok_iff] at h
  obtain ⟨d, hd, hfunction, _, -, hcount, h⟩ := h
  cases h
  refine canonical_single ⟨d, definition_eq_ok_iff.mp hd, fun hargument => ?_, fun _ => ?_⟩ hchildren
  · exact absurd hargument hfunction
  · have hwithin : ¬ (children.length < d.minParams.toNat ∨ d.maxParams.toNat < children.length) := by
      simpa using hcount
    exact ⟨not_lt.mp fun hlt => hwithin (.inl hlt), not_lt.mp fun hlt => hwithin (.inr hlt)⟩

theorem Canonical.merge {a b : Forest} (ha : v.Canonical a) (hb : v.Canonical b)
    (h : v.merge a b = .ok forest) : v.Canonical forest := by
  obtain ⟨_, hsole, h⟩ := Outcome.ok_of_bind h
  cases h
  have hmem : ∀ n ∈ Keyed.distinct v.renderNode (a ++ b), n ∈ a ∨ n ∈ b :=
    fun n hn => List.mem_append.mp (Keyed.mem_of_mem_distinct hn)
  refine .intro (Keyed.pairwise_distinct _ _) (soleHeads_of_checkSoleHeads hsole).2 ?_ ?_
  · exact fun n hn => (hmem n hn).elim (ha.bounded n) (hb.bounded n)
  · exact fun n hn => (hmem n hn).elim (ha.children n) (hb.children n)

theorem Canonical.applyChain {chain : Chain} {children : Forest} (hchildren : v.Canonical children)
    (h : v.applyChain chain children = .ok forest) : v.Canonical forest := by
  induction chain generalizing forest with
  | nil =>
    cases h
    exact hchildren
  | cons parent chain ih =>
    obtain ⟨inner, hinner, h⟩ := Outcome.ok_of_bind h
    exact (ih hinner).reduce h

/-- Every forest obtained so far is canonical in the vocabulary as it has become. -/
theorem canonical_of_composing {obtained : List Forest} (h : Composing v obtained) :
    ∀ forest ∈ obtained, v.Canonical forest := by
  induction h with
  | start =>
    intro forest hforest
    exact List.mem_singleton.mp hforest ▸ canonical_nil
  | register _ registered ih =>
    exact fun forest hforest => (extends_of_register registered).canonical (ih forest hforest)
  | leaf _ composed ih => exact List.forall_mem_cons.mpr ⟨canonical_leaf composed, ih⟩
  | reduce _ held composed ih =>
    exact List.forall_mem_cons.mpr ⟨(ih _ held).reduce composed, ih⟩
  | merge _ heldLeft heldRight composed ih =>
    exact List.forall_mem_cons.mpr ⟨(ih _ heldLeft).merge (ih _ heldRight) composed, ih⟩
  | applyChain _ held composed ih =>
    exact List.forall_mem_cons.mpr ⟨(ih _ held).applyChain composed, ih⟩

/-- An argument and two functions, the second of which may head only one of several siblings. -/
def followers : Vocabulary :=
  ⟨[.argument "me", .function "followed-by" 1 1,
    { Semantic.function "not" 1 1 with forbidsMultiple := true }]⟩

/-- The forest `me,not(followed-by(me))`. -/
def meNotFollowed : Forest :=
  [.mk ⟨0⟩ [], .mk ⟨2⟩ [.mk ⟨1⟩ [.mk ⟨0⟩ []]]]

theorem canonical_meNotFollowed : ∃ obtained, Composing followers obtained ∧
    meNotFollowed ∈ obtained ∧ followers.Canonical meNotFollowed := by
  have hargument : Composing ⟨[.argument "me"]⟩ [[]] :=
    .register .start
      (show Vocabulary.register {} (.argument "me") = .ok (⟨0⟩, ⟨[.argument "me"]⟩) from rfl)
  have hme : Composing ⟨[.argument "me"]⟩ [[.mk ⟨0⟩ []], []] :=
    hargument.leaf (show Vocabulary.leaf _ ⟨0⟩ = .ok [.mk ⟨0⟩ []] from rfl)
  have hfollowed : Composing ⟨[.argument "me", .function "followed-by" 1 1]⟩ [[.mk ⟨0⟩ []], []] :=
    hme.register (show Vocabulary.register _ (.function "followed-by" 1 1) = .ok (⟨1⟩, _) from rfl)
  have hgrown : Composing followers [[.mk ⟨0⟩ []], []] :=
    hfollowed.register (show Vocabulary.register _
      { Semantic.function "not" 1 1 with forbidsMultiple := true } = .ok (⟨2⟩, followers) from rfl)
  have happlied : Composing followers
      [[.mk ⟨2⟩ [.mk ⟨1⟩ [.mk ⟨0⟩ []]]], [.mk ⟨0⟩ []], []] :=
    hgrown.applyChain List.mem_cons_self
      (show followers.applyChain [⟨2⟩, ⟨1⟩] [.mk ⟨0⟩ []] =
        .ok [.mk ⟨2⟩ [.mk ⟨1⟩ [.mk ⟨0⟩ []]]] from rfl)
  have hmerged : Composing followers (meNotFollowed ::
      [[.mk ⟨2⟩ [.mk ⟨1⟩ [.mk ⟨0⟩ []]]], [.mk ⟨0⟩ []], []]) :=
    happlied.merge List.mem_cons_self (List.mem_cons_of_mem _ List.mem_cons_self)
      (show followers.merge [.mk ⟨2⟩ [.mk ⟨1⟩ [.mk ⟨0⟩ []]]] [.mk ⟨0⟩ []] = .ok meNotFollowed from rfl)
  exact ⟨_, hmerged, List.mem_cons_self, canonical_of_composing hmerged _ List.mem_cons_self⟩

end QueryGrammar.Vocabulary
