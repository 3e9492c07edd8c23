import Mathlib.Logic.Relation
import QueryGrammar.Proofs.Finish.Consistent
import QueryGrammar.Proofs.Finish.Edits
/-!
Drafts of which everything is used. The removal of the unused makes a consistent draft one, and it
stays one, and consistent, when its terminals are split and its edits added.
-/
namespace QueryGrammar.Draft

structure Used (d : Draft) : Prop where
  occurs : ∀ X ∈ d.liveSymbols, d.Occurs X
  semantics : ∀ id ∈ d.liveSemantics, d.Attaches id
  entityCategories : ∀ id ∈ d.liveEntityCategories, d.Places id

/-- No rule attaches a semantic that has been pruned. -/
def AttachesLive (d : Draft) : Prop := ∀ id, d.Attaches id → id ∈ d.liveSemantics

variable {d e : Draft}

/-- Where everything is used, every rule is in use. -/
theorem Used.applies (hu : d.Used) (hd : d.Consistent) {X : SymbolId} {r : Rule}
    (hr : r ∈ d.rules X) : d.Applies X r :=
  (hu.occurs X (live_of_mem_rules hr)).applies hr fun Y hY =>
    expands_of_occurs (hu.occurs Y ((hd.rules X r hr).parts Y hY))

/-! ### Removal of the unused -/

section Trim

variable (hd : d.Consistent) (hstart : d.Expands start)
include hstart

theorem applies_trimmed {X : SymbolId} {r : Rule} (h : d.Applies X r) :
    d.trimmed.Applies X r := by
  obtain ⟨t, ht, hroot, hmem⟩ := h
  refine ⟨t, ht.of_applications (fun _ => rfl) fun Y q hq => ?_, hroot, hmem⟩
  exact (mem_rules_trimmed_iff hstart).mpr ⟨t, ht, hroot, hq⟩

theorem carries_trimmed : Carries d d.trimmed where
  names X _ := d.trimmed_symbolName X
  rules _ r hr := ⟨r, applies_trimmed hstart hr, rfl, rfl, fun _ hY => hY⟩

theorem Holds.trimmed {id : SymbolId} {tokens : List String} (h : d.Holds id tokens)
    (ho : d.Occurs id) : d.trimmed.Holds id tokens := by
  induction h with
  | nothing hrule =>
    refine .nothing ((mem_rules_trimmed_iff hstart).mpr (ho.applies hrule ?_))
    simp [productions, productionsBy, Expansion.parts]
  | token htoken hrule =>
    refine .token htoken ((mem_rules_trimmed_iff hstart).mpr (ho.applies hrule ?_))
    simp [productions, productionsBy, Expansion.parts]
  | row hrule hhead htail ihhead ihtail =>
    -- both parts expand, so the rule is applied where the symbol occurs
    have happlies := ho.applies hrule (by
      simpa [productions, productionsBy, Expansion.parts] using ⟨hhead.expands, htail.expands⟩)
    have hpart := fun Y hY => happlies.occurs_part (Y := Y) hY
    refine .row ((mem_rules_trimmed_iff hstart).mpr happlies) (ihhead (hpart _ ?_))
      (ihtail (hpart _ ?_))
    · simp [productions, productionsBy, Expansion.parts]
    · simp [productions, productionsBy, Expansion.parts]

include hd

theorem Consistent.trimmed : d.trimmed.Consistent where
  names := d.trimmed_names ▸ hd.names
  startLive := (mem_liveSymbols_trimmed_iff hstart).mpr (Productions.occurs_root hstart)
  rules X r hr := by
    have happlies := (mem_rules_trimmed_iff hstart).mp hr
    have hfit := hd.rules X r happlies.expands.1
    refine ⟨fun Y hY => ?_, hfit.term, fun c hc => ?_, ?_, hfit.insertion, hfit.transposition⟩
    · exact (mem_liveSymbols_trimmed_iff hstart).mpr (happlies.occurs_part hY)
    · exact (mem_liveEntityCategories_trimmed_iff hstart).mpr ⟨hfit.category c hc, X, r, hr, hc⟩
    · rw [trimmed_vocabulary]
      exact hfit.semantics
  edits X r hr edit hedit := by
    have happlies := (mem_rules_trimmed_iff hstart).mp hr
    exact (hd.edits X r happlies.expands.1 edit hedit).carry (carries_trimmed hstart)
  made i s hs hhead := by
    have hname : (d.trimmed.symbols.map (·.name))[i]? = some s.name := by simp [hs]
    rw [trimmed_names, List.getElem?_map] at hname
    obtain ⟨t, ht, heq⟩ := Option.map_eq_some_iff.mp hname
    obtain ⟨hoccurs, tokens, htokens, hrow, hholds⟩ := hd.made i t ht (heq ▸ hhead)
    exact ⟨(carries_trimmed hstart).occurs hoccurs, tokens, htokens, heq ▸ hrow,
      hholds.trimmed hstart hoccurs⟩
  definitions := by
    rw [trimmed_vocabulary]
    exact hd.definitions

omit hd in
theorem used_trimmed : d.trimmed.Used where
  occurs _ hX := (carries_trimmed hstart).occurs ((mem_liveSymbols_trimmed_iff hstart).mp hX)
  semantics _ hid := ((mem_liveSemantics_trimmed_iff hstart).mp hid).2
  entityCategories _ hid := ((mem_liveEntityCategories_trimmed_iff hstart).mp hid).2

omit hd in
theorem attachesLive_trimmed_iff : d.trimmed.AttachesLive ↔
    ∀ X r, d.Applies X r → ∀ a, r.semantic = some a → ∀ id ∈ a.ids, id ∈ d.liveSemantics := by
  constructor
  · intro h X r hr a ha id hid
    have hattaches : d.trimmed.Attaches id :=
      ⟨X, r, (mem_rules_trimmed_iff hstart).mpr hr, a, ha, hid⟩
    exact ((mem_liveSemantics_trimmed_iff hstart).mp (h id hattaches)).1
  · rintro h id hattaches
    obtain ⟨X, r, hr, a, ha, hid⟩ := hattaches
    refine (mem_liveSemantics_trimmed_iff hstart).mpr ⟨?_, X, r, hr, a, ha, hid⟩
    exact h X r ((mem_rules_trimmed_iff hstart).mp hr) a ha id hid

end Trim

/-! ### Splitting terminals -/

theorem Reads.holds {n : Nat} {K : SymbolId → List String → Prop}
    (hK : ∀ id tokens, K id tokens → d.Holds id tokens) {id : SymbolId} {tokens : List String}
    (h : d.Reads n K id tokens) : d.Holds id tokens := by
  induction h with
  | known _ hreads => exact hK _ _ hreads
  | nothing _ hrules => exact .nothing (hrules ▸ List.mem_singleton_self _)
  | token _ htoken hrules => exact .token htoken (hrules ▸ List.mem_singleton_self _)
  | row _ _ hrules _ _ ihhead ihtail =>
    exact .row (hrules ▸ List.mem_singleton_self _) ihhead ihtail

section Splits

variable {n : Nat} {K : SymbolId → List String → Prop} {r r' : Rule} (h : d.Splits n K r r')
include h

theorem Splits.semantic_eq : r'.semantic = r.semantic := by
  cases h <;> rfl

theorem Splits.eq_of_single
    (hsingle : ∀ term text, r.expansion = .terminal term text → Text.wordsOf term = [term]) :
    r' = r := by
  cases h with
  | same => rfl
  | nothing hterminal hwords => simp [hsingle _ _ hterminal] at hwords
  | row hterminal hwords hseveral =>
    rw [hsingle _ _ hterminal] at hwords
    exact absurd (List.cons.inj hwords).2.symm hseveral

theorem Splits.eq_of_parted (hparted : r.expansion.parts ≠ []) : r' = r := by
  refine h.eq_of_single fun term text hx => ?_
  simp [hx, Expansion.parts] at hparted

theorem Splits.placeholder_iff {c : EntityCategoryId} :
    r'.expansion = .placeholder c ↔ r.expansion = .placeholder c := by
  cases h with
  | same => rfl
  | nothing hterminal => simp [hterminal]
  | row hterminal => simp [hterminal]

end Splits

section Split

variable (h : Tokenized d.Holds d d.liveSymbols e)
include h

/-- A rule of one live symbol is followed by the rule that has become of it. -/
theorem Tokenized.exists_split {X : SymbolId} {q : Rule} (hq : q ∈ d.rules X) :
    ∃ r ∈ e.rules X, e.Splits d.symbols.length d.Holds q r :=
  (exists_mem_of_forall₂ (h.rules (live_of_mem_rules hq))).1 q hq

theorem Tokenized.holds {id : SymbolId} {tokens : List String} (hholds : d.Holds id tokens) :
    e.Holds id tokens := by
  refine hholds.mono fun X r hr hsingle => ?_
  obtain ⟨r', hr', hsplits⟩ := h.exists_split hr
  exact hsplits.eq_of_single hsingle ▸ hr'

theorem Tokenized.holds_of_reads {id : SymbolId} {tokens : List String}
    (hreads : e.Reads d.symbols.length d.Holds id tokens) : e.Holds id tokens :=
  hreads.holds fun _ _ => h.holds

theorem Tokenized.expands {X : SymbolId} (hX : d.Expands X) : e.Expands X := by
  refine Productions.Expands.induction (P := e.Expands) (fun X r hr hparts => ?_) hX
  obtain ⟨r', hr', hsplits⟩ := h.exists_split hr
  refine Productions.expands_iff.mpr ⟨r', hr', fun Y hY => ?_⟩
  cases hsplits with
  | same => exact hparts Y hY
  | nothing _ _ hreads =>
    rw [List.mem_singleton.mp hY]
    exact (h.holds_of_reads hreads).expands
  | row _ _ _ hhead htail =>
    rcases List.mem_cons.mp hY with rfl | hY
    · exact (h.holds_of_reads hhead).expands
    · rw [List.mem_singleton.mp hY]
      exact (h.holds_of_reads htail).expands

theorem Tokenized.holds_made {X : SymbolId} (hX : X ∈ e.liveSymbols)
    (hge : d.symbols.length ≤ X.index) : ∃ tokens, e.Holds X tokens := by
  obtain ⟨s, hs⟩ := mem_liveSymbols_iff.mp hX
  obtain ⟨⟨tokens, -, -, hreads⟩, -⟩ := h.made X.index s (get?_eq_some_iff.mp hs).1 hge
  exact ⟨tokens, h.holds_of_reads hreads⟩

theorem Tokenized.mem_liveSemantics_iff (id : SemanticId) :
    id ∈ e.liveSemantics ↔ id ∈ d.liveSemantics := by
  rw [h.rest, Draft.mem_liveSemantics_iff, Draft.mem_liveSemantics_iff]

theorem Tokenized.mem_liveEntityCategories_iff (id : EntityCategoryId) :
    id ∈ e.liveEntityCategories ↔ id ∈ d.liveEntityCategories := by
  rw [h.rest]
  rfl

theorem Tokenized.attaches_iff (id : SemanticId) : e.Attaches id ↔ d.Attaches id := by
  constructor
  · rintro ⟨X, r, hr, a, ha, hid⟩
    rcases h.rule_cases (fun _ _ => Holds.live) hr with ⟨-, q, hq, hsplits⟩ | hmade
    · exact ⟨X, q, hq, a, hsplits.semantic_eq.symm.trans ha, hid⟩
    · cases hmade <;> simp at ha
  · rintro ⟨X, q, hq, a, ha, hid⟩
    obtain ⟨r, hr, hsplits⟩ := h.exists_split hq
    exact ⟨X, r, hr, a, hsplits.semantic_eq.trans ha, hid⟩

theorem Tokenized.attachesLive_iff : e.AttachesLive ↔ d.AttachesLive := by
  simp only [AttachesLive, h.attaches_iff, h.mem_liveSemantics_iff]

/-- Every terminal is one token once they have been split. -/
theorem Tokenized.single {X : SymbolId} {r : Rule} (hr : r ∈ e.rules X) {term : String}
    {text : DisplayText} (hx : r.expansion = .terminal term text) : Text.wordsOf term = [term] := by
  rcases h.rule_cases (fun _ _ => Holds.live) hr with ⟨-, q, hq, hsplits⟩ | hmade
  · cases hsplits with
    | same hsingle => exact hsingle term text hx
    | nothing => simp at hx
    | row => simp at hx
  · cases hmade with
    | nothing =>
      cases hx
      decide +kernel
    | token htoken =>
      cases hx
      exact Text.wordsOf_token htoken.word
    | row => simp at hx

section Consistent

variable (hd : d.Consistent)
include hd

theorem Consistent.parts_split {X : SymbolId} {r : Rule} (hr : r ∈ e.rules X) {Y : SymbolId}
    (hY : Y ∈ r.expansion.parts) : Y ∈ e.liveSymbols :=
  h.parts_live (fun _ _ => Holds.live) (fun X q hq => (hd.rules X q hq).parts) hr hY

theorem Consistent.fitRule_split {X : SymbolId} {r : Rule} (hr : r ∈ e.rules X) :
    e.FitRule r := by
  have hparts : ∀ Y ∈ r.expansion.parts, Y ∈ e.liveSymbols := fun _ hY => hd.parts_split h hr hY
  have hterm : Splittable r := fun _ _ hx => Or.inr (h.single hr hx)
  rcases h.rule_cases (fun _ _ => Holds.live) hr with ⟨-, q, hq, hsplits⟩ | hmade
  · have hfit := hd.rules X q hq
    refine ⟨hparts, hterm, fun c hc => ?_, fun a ha => ?_, ?_, ?_⟩
    · rw [h.mem_liveEntityCategories_iff]
      exact hfit.category c (hsplits.placeholder_iff.mp hc)
    · rw [h.rest]
      exact hfit.semantics a (hsplits.semantic_eq.symm.trans ha)
    · cases hsplits with
      | same => exact hfit.insertion
      | nothing => simp
      | row => simp [Expansion.isLexical]
    · cases hsplits with
      | same => exact hfit.transposition
      | nothing => simp
      | row => simp
  · cases hmade <;> exact ⟨hparts, hterm, by simp, by simp, by simp, by simp⟩

variable (hu : d.Used)
include hu

omit hd in
/-- Whatever is live expands: what was live before was in use, and the rest is made. -/
theorem Used.expands_split {X : SymbolId} (hX : X ∈ e.liveSymbols) : e.Expands X := by
  rcases h.live_cases hX with hold | hge
  · exact h.expands (expands_of_occurs (hu.occurs X hold))
  · obtain ⟨tokens, hholds⟩ := h.holds_made hX hge
    exact hholds.expands

theorem Used.applies_of_occurs_split {X : SymbolId} {r : Rule} (hX : e.Occurs X)
    (hr : r ∈ e.rules X) : e.Applies X r :=
  hX.applies hr fun _ hY => hu.expands_split h (hd.parts_split h hr hY)

theorem Used.occurs_split_of_occurs {X : SymbolId} (hX : d.Occurs X) : e.Occurs X := by
  refine hX.induction (P := e.Occurs) ?_ fun X r hXe hr _ Y hY => ?_
  · exact Productions.occurs_root (hu.expands_split h (h.live hd.startLive))
  · obtain ⟨r', hr', hsplits⟩ := h.exists_split hr
    have hsame := hsplits.eq_of_parted (List.ne_nil_of_mem hY)
    exact (hu.applies_of_occurs_split h hd hXe hr').occurs_part (hsame.symm ▸ hY)

/-- What is made for a rule occurs below the symbol of the rule. -/
theorem Used.occurs_of_below {X Y : SymbolId} (hX : e.Occurs X)
    (hY : e.Below d.symbols.length ((e.rules X).flatMap (·.expansion.parts)) Y) : e.Occurs Y := by
  induction hY with
  | root hmem =>
    obtain ⟨r, hr, hpart⟩ := List.mem_flatMap.mp hmem
    exact (hu.applies_of_occurs_split h hd hX hr).occurs_part hpart
  | step _ _ hr hpart ih => exact (hu.applies_of_occurs_split h hd ih hr).occurs_part hpart

theorem Used.occurs_split {X : SymbolId} (hX : X ∈ e.liveSymbols) : e.Occurs X := by
  rcases h.live_cases hX with hold | hge
  · exact hu.occurs_split_of_occurs h hd (hu.occurs X hold)
  · obtain ⟨s, hs⟩ := Draft.mem_liveSymbols_iff.mp hX
    obtain ⟨-, Y, hY, hbelow⟩ := h.made X.index s (get?_eq_some_iff.mp hs).1 hge
    exact hu.occurs_of_below h hd (hu.occurs_split_of_occurs h hd (hu.occurs Y hY)) hbelow

theorem Used.carries_split : Carries d e where
  names _ hX := h.symbolName_eq (live_of_occurs hX)
  rules X r hr := by
    obtain ⟨r', hr', hsplits⟩ := h.exists_split hr.expands.1
    refine ⟨r', hu.applies_of_occurs_split h hd ?_ hr', hsplits.edit_eq, hsplits.semantic_eq, ?_⟩
    · exact hu.occurs_split_of_occurs h hd ⟨r, hr⟩
    · intro Y hY
      rw [hsplits.eq_of_parted (List.ne_nil_of_mem hY)]
      exact hY

theorem Consistent.split : e.Consistent where
  names := h.names hd.names
  startLive := h.live hd.startLive
  rules _ _ hr := hd.fitRule_split h hr
  edits X r hr edit hedit := by
    rcases h.rule_cases (fun _ _ => Holds.live) hr with ⟨-, q, hq, hsplits⟩ | hmade
    · have hfit := hd.edits X q hq edit (hsplits.edit_eq.symm.trans hedit)
      rw [hsplits.eq_of_parted hfit.parted]
      exact hfit.carry (hu.carries_split h hd)
    · simp [hmade.edit_eq] at hedit
  made i t ht hhead := by
    rcases Nat.lt_or_ge i d.symbols.length with hlt | hge
    · have hs := List.getElem?_eq_getElem hlt
      obtain ⟨rules, hrules, -⟩ := h.content ⟨i⟩ _ hs
      obtain rfl := Option.some.inj (hrules.symm.trans ht)
      obtain ⟨hoccurs, tokens, htokens, hrow, hholds⟩ := hd.made i _ hs hhead
      exact ⟨hu.occurs_split_of_occurs h hd hoccurs, tokens, htokens, hrow, h.holds hholds⟩
    · obtain ⟨⟨tokens, htokens, hrow, hreads⟩, -⟩ := h.made i t ht hge
      have hholds := h.holds_of_reads hreads
      exact ⟨hu.occurs_split h hd hholds.live, tokens, htokens, hrow, hholds⟩
  definitions := by
    rw [h.rest]
    exact hd.definitions

theorem Used.split : e.Used where
  occurs _ hX := hu.occurs_split h hd hX
  semantics id hid :=
    (h.attaches_iff id).mpr (hu.semantics id ((h.mem_liveSemantics_iff id).mp hid))
  entityCategories id hid := by
    obtain ⟨X, q, hq, hx⟩ :=
      hu.entityCategories id ((h.mem_liveEntityCategories_iff id).mp hid)
    obtain ⟨r, hr, hsplits⟩ := h.exists_split hq
    exact ⟨X, r, hr, hsplits.placeholder_iff.mpr hx⟩

end Consistent

end Split

/-- The names of made symbols are known to be read as they say. -/
theorem Consistent.knowsMade (hd : d.Consistent) : KnowsMade d.Holds d := by
  intro i s tokens hs htokens hname
  have hhead : s.name.toList.head? ≠ some '[' := by
    rw [hname, head_rowName]
    decide
  obtain ⟨-, us, hus, hrow, hholds⟩ := hd.made i s hs hhead
  rw [rowName_injective htokens hus (hname.symm.trans hrow)]
  exact hholds

theorem Consistent.tokenized (hd : d.Consistent) :
    Tokenized d.Holds d d.liveSymbols d.tokenize.2 :=
  tokenized_tokenize hd.knowsMade fun X r hr => (hd.rules X r hr).term

/-! ### Edits -/

/-- An edit reads one part of its binary origin, the other being supplied, or both exchanged. -/
theorem mem_editsOf_cases {best : Candidates} {includeTrees : Bool} {X : SymbolId}
    {parent r : Rule} (h : r ∈ editsOf best includeTrees X parent) :
    ∃ first second cost excluded, parent.expansion = .binary first second cost excluded ∧
      ((∃ kept ∈ parent.expansion.parts, ∃ omitted position c, best.lookup omitted = some c ∧
          r = insertionRule parent kept position c includeTrees) ∨
        ∃ price, cost = some price ∧ r =
          { expansion := .binary second first none excluded.swap
            semantic := parent.semantic
            features := parent.features
            edit := some (.transposition price) }) := by
  rcases List.mem_append.mp h with h | h
  · obtain ⟨first, second, cost, excluded, c, hx, hsides⟩ := mem_insertionsOf_cases h
    refine ⟨first, second, cost, excluded, hx, Or.inl ?_⟩
    rcases hsides with ⟨-, hc, heq⟩ | ⟨-, hc, heq⟩
    · exact ⟨second, by simp [hx, Expansion.parts], first, .before, c, hc, heq⟩
    · exact ⟨first, by simp [hx, Expansion.parts], second, .after, c, hc, heq⟩
  · obtain ⟨first, second, price, excluded, hx, heq⟩ := mem_transpositionOf_cases h
    exact ⟨first, second, some price, excluded, hx, Or.inr ⟨price, rfl, heq⟩⟩

section Edited

variable {includeTrees : Bool} {X : SymbolId} {parent r : Rule}
variable (hr : r ∈ editsOf d.candidates includeTrees X parent)
include hr

theorem parts_of_mem_editsOf : r.expansion.parts ⊆ parent.expansion.parts := by
  obtain ⟨first, second, cost, excluded, hx, ⟨kept, hkept, omitted, position, c, -, rfl⟩ |
    ⟨price, -, rfl⟩⟩ := mem_editsOf_cases hr
  · intro Y hY
    rw [List.mem_singleton.mp hY]
    exact hkept
  · intro Y hY
    rw [hx]
    simpa [Expansion.parts, or_comm] using hY

theorem parted_of_mem_editsOf : r.expansion.parts ≠ [] := by
  obtain ⟨first, second, cost, excluded, -, ⟨kept, -, omitted, position, c, -, rfl⟩ |
    ⟨price, -, rfl⟩⟩ := mem_editsOf_cases hr
  · simp [insertionRule, Expansion.parts]
  · simp [Expansion.parts]

theorem semantic_of_mem_editsOf : r.semantic = parent.semantic := by
  obtain ⟨first, second, cost, excluded, -, ⟨kept, -, omitted, position, c, -, rfl⟩ |
    ⟨price, -, rfl⟩⟩ := mem_editsOf_cases hr
  · rfl
  · rfl

theorem fitRule_of_mem_editsOf (hparent : d.FitRule parent) : d.FitRule r := by
  have hparts := fun Y hY => hparent.parts Y (parts_of_mem_editsOf hr hY)
  have hsemantics := hparent.semantics
  rw [← semantic_of_mem_editsOf hr] at hsemantics
  obtain ⟨first, second, cost, excluded, -, ⟨kept, -, omitted, position, c, -, rfl⟩ |
    ⟨price, -, rfl⟩⟩ := mem_editsOf_cases hr
  · exact ⟨hparts, by simp [Splittable, insertionRule], by simp [insertionRule], hsemantics,
      by simp [insertionRule], by simp [insertionRule]⟩
  · exact ⟨hparts, by simp [Splittable], by simp, hsemantics, by simp, by simp⟩

/-- What is inserted is a candidate of the draft. -/
theorem candidateOf_of_mem_editsOf {i : Insertion} (hi : r.edit = some (.insertion i)) :
    ∃ c, d.CandidateOf c ∧ i.semantic = c.semantic ∧ ∀ tree, i.tree = some tree → tree = c.tree := by
  obtain ⟨first, second, cost, excluded, -, ⟨kept, -, omitted, position, c, hc, rfl⟩ |
    ⟨price, -, rfl⟩⟩ := mem_editsOf_cases hr
  · obtain rfl := Edit.insertion.inj (Option.some.inj hi)
    refine ⟨c, (d.sourced_candidates.lookup hc).candidateOf, rfl, fun tree htree => ?_⟩
    dsimp only at htree
    split at htree
    · exact (Option.some.inj htree).symm
    · simp at htree
  · simp at hi

theorem Used.fitEdit_of_mem_editsOf (hu : d.Used) (hd : d.Consistent)
    (hparent : parent ∈ d.rules X) (hplain : parent.edit = none) {edit : Edit}
    (hedit : r.edit = some edit) : d.FitEdit X r edit where
  parted := parted_of_mem_editsOf hr
  parent := ⟨parent, hu.applies hd hparent, hplain, (semantic_of_mem_editsOf hr).symm,
    parts_of_mem_editsOf hr⟩
  tree i tree hi htree name hname := by
    obtain ⟨c, hc, -, heq⟩ := candidateOf_of_mem_editsOf hr (hi ▸ hedit)
    rw [heq tree htree] at hname
    obtain ⟨Y, hY, hsymbol⟩ := hc.tree name hname
    exact ⟨Y, hu.occurs Y hY, hsymbol⟩
  inserted i forest hi hforest id hid := by
    obtain ⟨c, hc, heq, -⟩ := candidateOf_of_mem_editsOf hr (hi ▸ hedit)
    obtain ⟨Y, q, hq, a, ha, hmem⟩ := hc.semantic forest (heq ▸ hforest) id hid
    exact ⟨Y, q, a, hu.applies hd hq, ha, hmem⟩

end Edited

section Added

variable {P : SymbolId → Rule → Prop} (h : AddsRules P d e)
include h

theorem AddsRules.mem_liveSemantics_iff (id : SemanticId) :
    id ∈ e.liveSemantics ↔ id ∈ d.liveSemantics := by
  rw [h.rest, Draft.mem_liveSemantics_iff, Draft.mem_liveSemantics_iff]

theorem AddsRules.mem_liveEntityCategories_iff (id : EntityCategoryId) :
    id ∈ e.liveEntityCategories ↔ id ∈ d.liveEntityCategories := by
  rw [h.rest]
  rfl

theorem AddsRules.extends : d.Extends e where
  symbols id s hs := by
    have hlive := h.mem_liveSymbols_iff.mpr (Draft.mem_liveSymbols_iff.mpr ⟨s, hs⟩)
    exact Draft.mem_liveSymbols_iff.mp hlive
  semantics := by rw [h.rest]
  categories id c hc := by
    rw [h.rest]
    exact hc
  names X _ := h.symbolName_eq X
  rules X r hr := by
    obtain ⟨added, hrules, -⟩ := h.rules X
    rw [hrules]
    exact List.mem_append_left _ hr

end Added

section WithEdits

variable (includeTrees : Bool)

theorem rule_withEdits_cases {X : SymbolId} {r : Rule}
    (hr : r ∈ (d.withEdits includeTrees).2.rules X) :
    r ∈ d.rules X ∨ ∃ parent ∈ d.rules X, parent.edit = none ∧
      r ∈ editsOf d.candidates includeTrees X parent := by
  obtain ⟨added, hrules, hadded⟩ := (d.addsRules_withEdits includeTrees).rules X
  rw [hrules] at hr
  rcases List.mem_append.mp hr with hr | hr
  · exact Or.inl hr
  · obtain ⟨-, parent, hparent, hplain, hmem⟩ := hadded r hr
    exact Or.inr ⟨parent, hparent, by simpa [Rule.isEdit] using hplain, hmem⟩

theorem attaches_withEdits_iff (id : SemanticId) :
    (d.withEdits includeTrees).2.Attaches id ↔ d.Attaches id := by
  constructor
  · rintro ⟨X, r, hr, a, ha, hid⟩
    rcases rule_withEdits_cases includeTrees hr with hr | ⟨parent, hparent, -, hmem⟩
    · exact ⟨X, r, hr, a, ha, hid⟩
    · exact ⟨X, parent, hparent, a, (semantic_of_mem_editsOf hmem).symm.trans ha, hid⟩
  · rintro ⟨X, r, hr, a, ha, hid⟩
    exact ⟨X, r, (d.addsRules_withEdits includeTrees).extends.rules X hr, a, ha, hid⟩

theorem attachesLive_withEdits_iff :
    (d.withEdits includeTrees).2.AttachesLive ↔ d.AttachesLive := by
  simp only [AttachesLive, attaches_withEdits_iff,
    (d.addsRules_withEdits includeTrees).mem_liveSemantics_iff]

variable (hd : d.Consistent) (hu : d.Used)
include hd hu

theorem Consistent.withEdits : (d.withEdits includeTrees).2.Consistent := by
  have h := d.addsRules_withEdits includeTrees
  have hextends := h.extends
  constructor
  · rw [h.names]
    exact hd.names
  · exact hextends.live hd.startLive
  · intro X r hr
    rcases rule_withEdits_cases includeTrees hr with hr | ⟨parent, hparent, -, hmem⟩
    · exact (hd.rules X r hr).mono hextends
    · exact (fitRule_of_mem_editsOf hmem (hd.rules X parent hparent)).mono hextends
  · intro X r hr edit hedit
    rcases rule_withEdits_cases includeTrees hr with hr | ⟨parent, hparent, hplain, hmem⟩
    · exact (hd.edits X r hr edit hedit).carry hextends.carries
    · exact (hu.fitEdit_of_mem_editsOf hmem hd hparent hplain hedit).carry hextends.carries
  · intro i t ht hhead
    have hname : ((d.withEdits includeTrees).2.symbols.map (·.name))[i]? = some t.name := by
      simp [ht]
    rw [h.names, List.getElem?_map] at hname
    obtain ⟨s, hs, heq⟩ := Option.map_eq_some_iff.mp hname
    obtain ⟨hoccurs, tokens, htokens, hrow, hholds⟩ := hd.made i s hs (heq ▸ hhead)
    exact ⟨hextends.carries.occurs hoccurs, tokens, htokens, heq ▸ hrow,
      hholds.mono fun X r hr _ => hextends.rules X hr⟩
  · rw [h.rest]
    exact hd.definitions

omit hd in
theorem Used.withEdits : (d.withEdits includeTrees).2.Used where
  occurs X hX := by
    have h := d.addsRules_withEdits includeTrees
    exact h.extends.carries.occurs (hu.occurs X (h.mem_liveSymbols_iff.mp hX))
  semantics id hid := by
    have h := d.addsRules_withEdits includeTrees
    exact (attaches_withEdits_iff includeTrees id).mpr
      (hu.semantics id ((h.mem_liveSemantics_iff id).mp hid))
  entityCategories id hid := by
    have h := d.addsRules_withEdits includeTrees
    obtain ⟨X, r, hr, hx⟩ :=
      hu.entityCategories id ((h.mem_liveEntityCategories_iff id).mp hid)
    exact ⟨X, r, h.extends.rules X hr, hx⟩

end WithEdits

end QueryGrammar.Draft
