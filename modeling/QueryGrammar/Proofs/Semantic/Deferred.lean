import Mathlib.Logic.Relation
import QueryGrammar.Proofs.Semantic.Rendered
/-!
Chains and what they are applied to. A chain is checked when it is accepted, and every function in
it checks its children again when it is applied. The first check is what the second needs: only the
innermost function may still refuse its children, because every other has a single child, a node of
the function inside it.
-/
namespace QueryGrammar

namespace Vocabulary

/-- Functions of which each but the innermost can take a single child. -/
structure Chainable (v : Vocabulary) (chain : Chain) : Prop where
  nonempty : chain ≠ []
  functions : ∀ id ∈ chain, ∃ d, v.get? id = some d ∧ d.isArg = false
  single : ∀ id ∈ chain.dropLast, ∀ d, v.get? id = some d → d.minParams ≤ 1

/-- The second vocabulary is the first with one more definition. -/
def Registers (v w : Vocabulary) : Prop := ∃ definition id, v.register definition = .ok (id, w)

/-- The functions of a chain one inside the other, the innermost around the children. -/
def nested : Chain → Forest → Forest
  | [], children => children
  | id :: chain, children => [.mk id (nested chain children)]

/-- The functions of a chain written around a text, the outermost first: `f(g(text))`. -/
def writtenAround (v : Vocabulary) : Chain → String → String
  | [], text => text
  | id :: chain, text => v.name id ++ "(" ++ v.writtenAround chain text ++ ")"

variable {v w : Vocabulary} {chain : Chain} {children forest : Forest}

/-! ### Growing -/

theorem Grown.of_registers (hv : v.Grown) (h : Relation.ReflTransGen Registers v w) : w.Grown := by
  induction h with
  | refl => exact hv
  | tail _ hlast ih =>
    obtain ⟨definition, id, hlast⟩ := hlast
    exact ih.register hlast

theorem extends_of_registers (h : Relation.ReflTransGen Registers v w) : w.Extends v := by
  induction h with
  | refl => exact fun _ _ hd => hd
  | tail _ hlast ih =>
    obtain ⟨definition, id, hlast⟩ := hlast
    exact fun id' d hd => extends_of_register hlast id' d (ih id' d hd)

theorem Extends.chainable (h : w.Extends v) (hchain : v.Chainable chain) : w.Chainable chain where
  nonempty := hchain.nonempty
  functions id hid := by
    obtain ⟨d, hd, hfunction⟩ := hchain.functions id hid
    exact ⟨d, h _ _ hd, hfunction⟩
  single id hid d hd := by
    obtain ⟨k, hk, -⟩ := hchain.functions id (List.mem_of_mem_dropLast hid)
    obtain rfl := Option.some.inj ((h _ _ hk).symm.trans hd)
    exact hchain.single id hid k hk

theorem boundsFlaw?_of_register {definition : Semantic} {id : SemanticId}
    (h : v.register definition = .ok (id, w)) : boundsFlaw? definition = none := by
  unfold register at h
  simp only [Outcome.bind_eq_ok_iff, Outcome.guard_eq_ok_iff] at h
  obtain ⟨_, -, -, h⟩ := h
  split at h
  · cases h
  next hbounds => exact hbounds

/-- Bounds are in order, and a function takes at least one child. -/
theorem Grown.boundsFlaw?_eq_none (hv : v.Grown) : ∀ d ∈ v.definitions, boundsFlaw? d = none := by
  induction hv with
  | start => simp
  | register _ registered ih =>
    obtain ⟨-, -, -, -, rfl⟩ := register_eq registered
    simpa [or_imp, forall_and, boundsFlaw?_of_register registered] using ih

theorem Grown.one_le_maxParams (hv : v.Grown) {id : SemanticId} {d : Semantic}
    (hd : v.get? id = some d) (hfunction : d.isArg = false) : 1 ≤ d.maxParams.toNat := by
  have hbounds := hv.boundsFlaw?_eq_none d (List.mem_of_getElem? hd)
  have hmax : d.maxParams ≠ 0 := by
    intro hmax
    simp [boundsFlaw?, hfunction, hmax] at hbounds
  have hpos : d.maxParams.toNat ≠ 0 := fun h => hmax (UInt64.toNat_inj.mp h)
  omega

/-! ### Steps -/

theorem reduce_eq_ok_iff {parent : SemanticId} : v.reduce parent children = .ok forest ↔
    ∃ d, v.get? parent = some d ∧ d.isArg = false ∧ v.checkSoleHeads [] children = .ok () ∧
      d.minParams.toNat ≤ children.length ∧ children.length ≤ d.maxParams.toNat ∧
      forest = [.mk parent children] := by
  unfold reduce
  simp only [Outcome.bind_eq_ok_iff, Outcome.guard_eq_ok_iff, definition_eq_ok_iff]
  constructor
  · rintro ⟨d, hd, hfunction, ⟨⟩, hsole, hcount, h⟩
    cases h
    simp only [Bool.or_eq_true, decide_eq_true_eq, not_or, not_lt] at hcount
    exact ⟨d, hd, Bool.eq_false_iff.mpr hfunction, hsole, hcount.1, hcount.2, rfl⟩
  · rintro ⟨d, hd, hfunction, hsole, hmin, hmax, rfl⟩
    refine ⟨d, hd, Bool.eq_false_iff.mp hfunction, (), hsole, ?_, rfl⟩
    simp only [Bool.or_eq_true, decide_eq_true_eq, not_or, not_lt]
    exact ⟨hmin, hmax⟩

theorem defer_eq_ok_iff {result : Chain} : v.defer chain = .ok result ↔
    result = chain ∧ v.Chainable chain := by
  have hfunctions : (chain.forM fun id => do
      let d ← v.definition id
      if d.isArg then throw (.argumentApplied d.name)) = (.ok () : Outcome Unit) ↔
      ∀ id ∈ chain, ∃ d, v.get? id = some d ∧ d.isArg = false := by
    simp only [Outcome.forM_eq_ok_iff, Outcome.bind_eq_ok_iff, definition_eq_ok_iff,
      Outcome.refusal_eq_ok_iff, Bool.not_eq_true]
  have hsingle : (chain.dropLast.forM fun id => do
      let d ← v.definition id
      if 1 < d.minParams then throw (.argumentCount d.name d.minParams d.maxParams 1)) =
        (.ok () : Outcome Unit) ↔
      ∀ id ∈ chain.dropLast, ∃ d, v.get? id = some d ∧ d.minParams ≤ 1 := by
    simp only [Outcome.forM_eq_ok_iff, Outcome.bind_eq_ok_iff, definition_eq_ok_iff,
      Outcome.refusal_eq_ok_iff, UInt64.not_lt]
  unfold defer
  simp only [Outcome.bind_eq_ok_iff, Outcome.guard_eq_ok_iff]
  constructor
  · rintro ⟨hne, _, hf, _, hs, h⟩
    cases h
    refine ⟨rfl, by simpa using hne, hfunctions.mp hf, fun id hid d hd => ?_⟩
    obtain ⟨k, hk, hmin⟩ := hsingle.mp hs id hid
    obtain rfl := Option.some.inj (hk.symm.trans hd)
    exact hmin
  · rintro ⟨rfl, h⟩
    refine ⟨by simpa using h.nonempty, (), hfunctions.mpr h.functions, (), hsingle.mpr ?_, rfl⟩
    intro id hid
    obtain ⟨d, hd, -⟩ := h.functions id (List.mem_of_mem_dropLast hid)
    exact ⟨d, hd, h.single id hid d hd⟩

/-- A chain that is accepted can be applied. -/
theorem chainable_of_defer {result : Chain} (h : v.defer chain = .ok result) :
    v.Chainable result := by
  obtain ⟨rfl, hchainable⟩ := defer_eq_ok_iff.mp h
  exact hchainable

/-- A function that may have a single child takes any node with a definition as it. -/
theorem Grown.reduce_single (hv : v.Grown) {id : SemanticId} {d : Semantic}
    (hd : v.get? id = some d) (hfunction : d.isArg = false) (hmin : d.minParams ≤ 1) {n : Node}
    (hn : ∃ k, v.get? n.semantic = some k) : v.reduce id [n] = .ok [.mk id [n]] := by
  obtain ⟨k, hk⟩ := hn
  have hmin : d.minParams.toNat ≤ 1 := by simpa [UInt64.le_iff_toNat_le] using hmin
  have hsole : v.checkSoleHeads [] [n] = .ok () := by
    rw [checkSoleHeads, definition_eq_ok_iff.mpr hk]
    cases hforbids : k.forbidsMultiple <;> simp [hforbids, checkSoleHeads, bind, Except.bind]
  exact reduce_eq_ok_iff.mpr ⟨d, hd, hfunction, hsole, hmin, hv.one_le_maxParams hd hfunction, rfl⟩

/-- What a chain makes of its children, whatever is checked on the way. -/
theorem eq_nested_of_applyChain (h : v.applyChain chain children = .ok forest) :
    forest = nested chain children := by
  induction chain generalizing forest with
  | nil =>
    cases h
    rfl
  | cons id chain ih =>
    obtain ⟨inner, hinner, h⟩ := Outcome.ok_of_bind h
    obtain ⟨d, -, -, -, -, -, rfl⟩ := reduce_eq_ok_iff.mp h
    rw [ih hinner, nested]

theorem Chainable.tail {id next : SemanticId} (h : v.Chainable (id :: next :: chain)) :
    v.Chainable (next :: chain) where
  nonempty := List.cons_ne_nil next chain
  functions f hf := h.functions f (List.mem_cons_of_mem id hf)
  single f hf := h.single f (List.mem_cons_of_mem id hf)

/-- After the innermost function nothing can go wrong any more. -/
theorem Chainable.applyChain_eq (hv : v.Grown) (h : v.Chainable chain) (children : Forest) :
    v.applyChain chain children =
      (v.reduce (chain.getLast h.nonempty) children).map fun _ => nested chain children := by
  induction chain with
  | nil => exact absurd rfl h.nonempty
  | cons id chain ih =>
    cases chain with
    | nil =>
      change v.reduce id children = (v.reduce id children).map fun _ => [.mk id children]
      cases hreduce : v.reduce id children with
      | error e => rfl
      | ok forest =>
        obtain ⟨d, -, -, -, -, -, rfl⟩ := reduce_eq_ok_iff.mp hreduce
        rfl
    | cons next chain =>
      obtain ⟨d, hd, hfunction⟩ := h.functions id List.mem_cons_self
      obtain ⟨k, hk, -⟩ := h.functions next (by simp)
      have hmin := h.single id (by simp) d hd
      -- What the outer function is given is the one node of the function inside it.
      have houter := hv.reduce_single hd hfunction hmin (n := .mk next (nested chain children))
        ⟨k, hk⟩
      rw [applyChain, ih h.tail, List.getLast_cons_cons]
      cases v.reduce ((next :: chain).getLast h.tail.nonempty) children with
      | error e => rfl
      | ok _ => exact houter

/-- A chain that has been applied to anything is one that would have been accepted. -/
theorem chainable_of_applyChain (hne : chain ≠ [])
    (h : v.applyChain chain children = .ok forest) : v.Chainable chain := by
  induction chain generalizing forest with
  | nil => exact absurd rfl hne
  | cons id chain ih =>
    obtain ⟨inner, hinner, h⟩ := Outcome.ok_of_bind h
    obtain ⟨d, hd, hfunction, -, hmin, -, -⟩ := reduce_eq_ok_iff.mp h
    cases chain with
    | nil =>
      refine ⟨hne, ?_, by simp⟩
      rw [List.forall_mem_singleton]
      exact ⟨d, hd, hfunction⟩
    | cons next chain =>
      have hrest := ih (List.cons_ne_nil next chain) hinner
      have hone : d.minParams ≤ 1 := by
        rw [eq_nested_of_applyChain hinner] at hmin
        simpa [nested, UInt64.le_iff_toNat_le] using hmin
      refine ⟨hne, List.forall_mem_cons.mpr ⟨⟨d, hd, hfunction⟩, hrest.functions⟩, ?_⟩
      rw [List.dropLast_cons_cons, List.forall_mem_cons]
      refine ⟨fun k hk => ?_, hrest.single⟩
      obtain rfl := Option.some.inj (hd.symm.trans hk)
      exact hone

theorem render_nested (hfunctions : ∀ id ∈ chain, ∃ d, v.get? id = some d ∧ d.isArg = false)
    (children : Forest) :
    v.render (nested chain children) = v.writtenAround chain (v.render children) := by
  induction chain with
  | nil => rfl
  | cons id chain ih =>
    rw [List.forall_mem_cons] at hfunctions
    obtain ⟨⟨d, hd, hfunction⟩, hrest⟩ := hfunctions
    rw [writtenAround, ← ih hrest, nested, render, renderNodes, renderNodes, renderNode, hd]
    simp [hfunction, render]

/-- The check that a chain passes up front is what applying it needs. A chain that is accepted fails
only where its innermost function does, and with the same error, also after more has been
registered; a chain that is refused can be applied to nothing. -/
theorem Grown.defer_exact (hv : v.Grown) (hchain : chain ≠ []) :
    (∀ deferred, v.defer chain = .ok deferred →
      ∀ w, Relation.ReflTransGen Registers v w → ∀ children,
        ((∃ forest, w.applyChain deferred children = .ok forest) ↔
          ∃ forest, w.reduce (chain.getLast hchain) children = .ok forest) ∧
        (∀ e, w.applyChain deferred children = .error e ↔
          w.reduce (chain.getLast hchain) children = .error e) ∧
        ∀ forest, w.applyChain deferred children = .ok forest →
          w.render forest = w.writtenAround chain (w.render children)) ∧
    ∀ e, v.defer chain = .error e →
      ∀ children, ∃ flaw, v.applyChain chain children = .error flaw := by
  constructor
  · intro deferred hdefer w hgrown children
    obtain ⟨rfl, haccepted⟩ := defer_eq_ok_iff.mp hdefer
    have hchainable := (extends_of_registers hgrown).chainable haccepted
    have happly := hchainable.applyChain_eq (hv.of_registers hgrown) children
    rw [happly]
    refine ⟨?_, ?_, fun forest h => ?_⟩
    · cases w.reduce (deferred.getLast hchain) children <;> simp [Except.map]
    · cases w.reduce (deferred.getLast hchain) children <;> simp [Except.map]
    · rw [eq_nested_of_applyChain (happly.trans h), render_nested hchainable.functions]
  · intro e hrefused children
    cases happly : v.applyChain chain children with
    | error flaw => exact ⟨flaw, rfl⟩
    | ok forest =>
      have haccepted := defer_eq_ok_iff.mpr ⟨rfl, chainable_of_applyChain hchain happly⟩
      cases hrefused.symm.trans haccepted

/-- The vocabulary of `followers` with a function of two children. -/
def pairing : Vocabulary := ⟨followers.definitions ++ [.function "both" 2 2]⟩

theorem registers_pairing : Registers followers pairing := ⟨.function "both" 2 2, ⟨3⟩, rfl⟩

/-- `not(followed-by(…))` around one leaf, around two, and a function that needs two around it. -/
theorem defer_exact_notFollowed :
    followers.defer [⟨2⟩, ⟨1⟩] = .ok [⟨2⟩, ⟨1⟩] ∧
    pairing.applyChain [⟨2⟩, ⟨1⟩] [.mk ⟨0⟩ []] = .ok [.mk ⟨2⟩ [.mk ⟨1⟩ [.mk ⟨0⟩ []]]] ∧
    pairing.render [.mk ⟨2⟩ [.mk ⟨1⟩ [.mk ⟨0⟩ []]]] = "not(followed-by(me))" ∧
    pairing.applyChain [⟨2⟩, ⟨1⟩] meNotFollowed = .error (.argumentCount "followed-by" 1 1 2) ∧
    pairing.defer [⟨3⟩, ⟨1⟩] = .error (.argumentCount "both" 2 2 1) ∧
    ∀ children, ∃ flaw, pairing.applyChain [⟨3⟩, ⟨1⟩] children = .error flaw := by
  have haccepted : followers.defer [⟨2⟩, ⟨1⟩] = .ok [⟨2⟩, ⟨1⟩] := rfl
  have hrefused : pairing.defer [⟨3⟩, ⟨1⟩] = .error (.argumentCount "both" 2 2 1) := rfl
  have hgrown : Relation.ReflTransGen Registers followers pairing := .single registers_pairing
  obtain ⟨happlies, -⟩ := grown_followers.defer_exact (List.cons_ne_nil ⟨2⟩ [⟨1⟩])
  obtain ⟨-, hfails⟩ := (grown_followers.of_registers hgrown).defer_exact
    (List.cons_ne_nil ⟨3⟩ [⟨1⟩])
  have happlied : pairing.applyChain [⟨2⟩, ⟨1⟩] [.mk ⟨0⟩ []] =
      .ok [.mk ⟨2⟩ [.mk ⟨1⟩ [.mk ⟨0⟩ []]]] := rfl
  refine ⟨haccepted, happlied, ?_, ?_, hrefused, hfails _ hrefused⟩
  · obtain ⟨-, -, hwritten⟩ := happlies _ haccepted pairing hgrown [.mk ⟨0⟩ []]
    rw [hwritten _ happlied]
    decide +kernel
  · obtain ⟨-, herror, -⟩ := happlies _ haccepted pairing hgrown meNotFollowed
    exact (herror _).mpr rfl

end Vocabulary

end QueryGrammar
