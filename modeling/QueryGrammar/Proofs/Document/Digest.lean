import QueryGrammar.Proofs.Document.Levels
import QueryGrammar.Proofs.Finish.Restored
import QueryGrammar.Proofs.Named.Compiled
/-!
What the digest covers. The text it is taken of settles the rule sets, the semantics and the entity
categories, each cost to the last bit, and depends on nothing else. So a document that was changed
in any of them has another digest, unless two texts have the same.
-/
namespace QueryGrammar

open Json

/-- What is written of each item settles the items. -/
theorem Json.eq_of_map_eq {α β : Type} {f : α → β} {xs ys : List α}
    (hf : ∀ x ∈ xs, ∀ y, f x = f y → x = y) (h : xs.map f = ys.map f) : xs = ys := by
  induction xs generalizing ys with
  | nil => exact (List.map_eq_nil_iff.mp h.symm).symm
  | cons x xs ih =>
    cases ys with
    | nil => cases h
    | cons y ys =>
      rw [List.forall_mem_cons] at hf
      obtain ⟨hhead, htail⟩ := List.cons.inj h
      rw [hf.1 y hhead, ih hf.2 htail]

theorem SemanticTraits.eq_of_toJson {s t : SemanticTraits} (hs : s.cost.isFinite = true)
    (h : s.toJson = t.toJson) : s = t := by
  have hmembers := record_inj h
  simp only [List.cons.injEq, Prod.mk.injEq, true_and, and_true, Json.bool.injEq] at hmembers
  obtain ⟨hmin, hmax, hcost, harg, hforbids⟩ := hmembers
  cases s
  cases t
  rw [SemanticTraits.mk.injEq]
  exact ⟨UInt64.toNat_inj.mp (nat_injective hmin), UInt64.toNat_inj.mp (nat_injective hmax),
    float_inj hs hcost, harg, hforbids⟩

theorem NamedRule.finite_of_costs {rule : NamedRule} (h : ∀ x ∈ rule.costs, x.isFinite = true) :
    rule.Finite where
  insertion cost hcost := h cost (by simp [costs, hcost])
  transposition cost hcost := h cost (by simp [costs, hcost])
  edit edit hedit := h _ (cost_mem_costs hedit)

namespace Document

theorem mapJson_inj {α : Type} {f : α → Json} {m n : SortedMap α}
    (hf : ∀ e ∈ m.entries, ∀ y, f e.2 = f y → e.2 = y) (h : mapJson f m = mapJson f n) : m = n := by
  refine SortedMap.ext_entries (eq_of_map_eq (fun e he e' heq => ?_) (record_inj h))
  obtain ⟨hname, hvalue⟩ := Prod.mk.inj heq
  exact Prod.ext hname (hf e he e'.2 hvalue)

variable {g h : Document}

/-- The text that the digest is taken of settles what it covers, where costs are finite. -/
theorem content_eq_iff (hfinite : ∀ x ∈ g.costs, x.isFinite = true) :
    g.content = h.content ↔ g.ruleSets = h.ruleSets ∧ g.semantics = h.semantics ∧
      g.entityCategories = h.entityCategories := by
  constructor
  · intro heq
    have hmembers := record_inj (toCompact_injective (.ofMembers g.plain_contentMembers)
      (.ofMembers h.plain_contentMembers) heq)
    simp only [contentMembers, List.cons.injEq, Prod.mk.injEq, true_and, and_true] at hmembers
    obtain ⟨hrules, hsemantics, hcategories⟩ := hmembers
    refine ⟨mapJson_inj (fun e he rules heq => ?_) hrules,
      mapJson_inj (fun e he t heq => ?_) hsemantics,
      mapJson_inj (fun e he names heq => texts_inj heq) hcategories⟩
    · refine eq_of_map_eq (fun rule hrule row hrow => ?_) (Json.array.inj heq)
      have hcosts : ∀ x ∈ rule.costs, x.isFinite = true := fun x hx =>
        hfinite x (mem_costs_iff.mpr (.inr ⟨e, he, rule, hrule, hx⟩))
      exact NamedRule.eq_of_sortKey_eq (NamedRule.finite_of_costs hcosts) (congrArg toCompact hrow)
    · exact SemanticTraits.eq_of_toJson (hfinite _ (mem_costs_iff.mpr (.inl ⟨e, he, rfl⟩))) heq
  · rintro ⟨hrules, hsemantics, hcategories⟩
    rw [content, content, contentMembers, contentMembers, hrules, hsemantics, hcategories]

/-- The bytes that are hashed are the same for two documents exactly if their rule sets, semantics
and entity categories are; so a document that was read and has the digest of a compiled one again
has all of these from it, unless the hash collides on the two. -/
theorem content_settles :
    (∀ g h : Document, (∀ x ∈ g.costs, x.isFinite = true) → (∀ x ∈ h.costs, x.isFinite = true) →
      (g.content.toUTF8 = h.content.toUTF8 ↔ g.ruleSets = h.ruleSets ∧
        g.semantics = h.semantics ∧ g.entityCategories = h.entityCategories)) ∧
    ∀ (d : Draft) (o : Options) (c : Compilation), ((Draft.finish o).perform d).1 = .ok c →
      ∀ (text : String) (g : Document), ofText? text = some g →
        (Sha256.ofText g.content = Sha256.ofText c.grammar.content →
          g.content.toUTF8 = c.grammar.content.toUTF8) →
        g.contentDigest = c.grammar.digest →
          g.ruleSets = c.grammar.ruleSets ∧ g.semantics = c.grammar.semantics ∧
            g.entityCategories = c.grammar.entityCategories := by
  constructor
  · intro g h hg _
    exact String.toByteArray_inj.trans (content_eq_iff hg)
  · intro d o c hfinish text g hread hcollision hdigest
    have hown : c.grammar.digest = c.grammar.contentDigest := by
      rw [Draft.grammar_of_finish (Prod.ext hfinish rfl)]
      exact digest_ofDraft _
    have hbytes := hcollision (hdigest.trans hown)
    exact (content_eq_iff (limits_of_ofText? hread).2).mp (String.toByteArray_inj.mp hbytes)

/-- The same document but for its schema. -/
def withSchema (g : Document) (schema : UInt32) : Document := { g with schema := schema }

/-- A document with one semantic, which costs this much. -/
def pricing (cost : Float) : Document where
  schema := currentSchema
  grammarKind := currentKind
  startSymbol := ""
  digest := ""
  ruleSets := .ofList []
  semantics := .ofList [("f", ⟨1, 1, cost, false, false⟩)]
  entityCategories := .ofList []

/-- The two zeros are told apart; another schema is read from a text without being noticed. -/
theorem content_settles_greeting :
    (pricing 0.0).content.toUTF8 ≠ (pricing (-0.0)).content.toUTF8 ∧
    ∃ (c : Compilation) (text : String) (g : Document), compile [greeting "hi"] {} = .ok c ∧
      ofText? text = some g ∧ g.schema = 2 ∧ g.contentDigest = c.grammar.digest ∧
        g.ruleSets = c.grammar.ruleSets ∧ g.semantics = c.grammar.semantics ∧
          g.entityCategories = c.grammar.entityCategories := by
  constructor
  · intro heq
    obtain ⟨-, hsemantics, -⟩ := (content_settles.1 (pricing 0.0) (pricing (-0.0))
      (by decide +kernel) (by decide +kernel)).mp heq
    have hcosts := congrArg (fun m : SortedMap SemanticTraits => m.values.map (·.cost)) hsemantics
    exact absurd hcosts (by decide +kernel)
  · have hcompiled : ((compile [greeting "hi"] {}).toOption.map fun c =>
        ((c.grammar.withSchema 2).costs, (c.grammar.withSchema 2).toJson.depth)) = some ([], 5) := by
      decide +kernel
    obtain ⟨c, hc, hlimits⟩ := Option.map_eq_some_iff.mp hcompiled
    obtain ⟨hcosts, hdepth⟩ := Prod.mk.inj hlimits
    have h : compile [greeting "hi"] {} = .ok c := by
      cases hcompile : compile [greeting "hi"] {} with
      | error _ => simp [hcompile, Except.toOption] at hc
      | ok _ => simpa [hcompile, Except.toOption] using hc
    obtain ⟨e, hfinish⟩ := exists_of_compile h
    have hread : ofText? (c.grammar.withSchema 2).toPretty = some (c.grammar.withSchema 2) :=
      ofText?_toPretty (by simp [hcosts]) (hdepth.trans_le (by decide))
    have hdigest : (c.grammar.withSchema 2).contentDigest = c.grammar.digest := by
      rw [Draft.grammar_of_finish hfinish]
      exact (digest_ofDraft _).symm
    exact ⟨c, _, _, h, hread, rfl, hdigest, content_settles.2 _ {} c (congrArg Prod.fst hfinish)
      _ _ hread (fun _ => rfl) hdigest⟩

end Document

end QueryGrammar
