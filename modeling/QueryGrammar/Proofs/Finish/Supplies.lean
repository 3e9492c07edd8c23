import QueryGrammar.Proofs.Finish.Candidates
/-!
Derivations that supply a symbol without input. Their leaves are lexical rules with an insertion
cost, their other rules exclude no position. Every candidate that the search finds belongs to such a
derivation, and all its fields are read off it. Candidates for the parts may be replaced after they
were used, so this does not depend on what the search holds later.
-/
namespace QueryGrammar

/-- The symbols that have to be supplied for a rule to supply its own. -/
def Expansion.needed : Expansion → List SymbolId
  | .unary part _ => [part]
  | .binary first second _ _ => [first, second]
  | _ => []

/-- A lexical rule supplies its symbol if it has an insertion cost, a rule over symbols if no
position is excluded, and a placeholder never. -/
def Rule.CanSupply (r : Rule) : Prop :=
  match r.expansion with
  | .terminal _ _ | .sequence _ _ _ => r.insertionCost.isSome = true
  | .unary _ noInsertion => noInsertion = false
  | .binary _ _ _ excluded => excluded.any = false
  | .placeholder _ => False

namespace Draft

variable {d : Draft} {X : SymbolId} {r : Rule} {c : Candidate} {t : Derivation SymbolId Rule}
  {ts : List (Derivation SymbolId Rule)}

/-- The rules by which live symbols are supplied; a leaf reads the segments it shows. -/
def supplying (d : Draft) : Productions SymbolId Rule Segment Attachment where
  has X r := r ∈ d.rules X ∧ r.edit = none ∧ r.CanSupply
  parts r := r.expansion.needed
  tokens r := (d.lexicalText? r.expansion).getD []
  attached r := r.semantic.toList

/-- The sum of the leaf costs. Sums start at negative zero at each node. -/
def supplyCost : Derivation SymbolId Rule → Float :=
  Derivation.fold fun _ r costs =>
    if r.expansion.isLexical then r.insertionCost.getD 0 else costs.foldl (· + ·) (-0.0)

def supplySize : Derivation SymbolId Rule → Nat :=
  Derivation.fold fun _ _ sizes => sizes.foldl (· + ·) 1

def provenance (d : Draft) : Derivation SymbolId Rule → Provenance :=
  Derivation.fold fun X r trees => .mk (d.symbolName X) (d.supplying.tokens r) trees

/-- The semantics composed from the leaves up: at each node the attachment of the rule over what the
children have together. It fails where any of these compositions does. -/
def composed (d : Draft) : Derivation SymbolId Rule → Outcome (Option Forest) :=
  Derivation.fold fun _ r inners => do
    let inner ← mergeAll d.vocabulary (← inners.mapM id) none
    attachedOver d.vocabulary r.semantic inner

/-- The candidate that the rules of a derivation make one after another. -/
def supply (d : Draft) : Derivation SymbolId Rule → Outcome Candidate :=
  Derivation.fold fun X r parts =>
    match d.lexicalText? r.expansion with
    | some text =>
      leafCandidate d.vocabulary (d.symbolName X) r.semantic (r.insertionCost.getD 0) text
    | none => do
      composedCandidate d.vocabulary (d.symbolName X) r.semantic (← parts.mapM id)

theorem supplyCost_node : supplyCost (.node X r ts) =
    if r.expansion.isLexical then r.insertionCost.getD 0
    else (ts.map supplyCost).foldl (· + ·) (-0.0) :=
  Derivation.fold_node _ _ _ _

theorem supplySize_node : supplySize (.node X r ts) = (ts.map supplySize).foldl (· + ·) 1 :=
  Derivation.fold_node _ _ _ _

theorem provenance_node : d.provenance (.node X r ts) =
    .mk (d.symbolName X) ((d.lexicalText? r.expansion).getD []) (ts.map d.provenance) :=
  Derivation.fold_node _ _ _ _

theorem composed_node : d.composed (.node X r ts) =
    ((ts.map d.composed).mapM id >>= fun parts => mergeAll d.vocabulary parts none >>=
      attachedOver d.vocabulary r.semantic) :=
  Derivation.fold_node _ _ _ _

/-! ### A rule over candidates -/

theorem isLexical_of_text {x : Expansion} {text : List Segment} (h : d.lexicalText? x = some text) :
    x.isLexical = true := by
  cases x <;> simp_all [lexicalText?, Expansion.isLexical]

theorem not_isLexical_iff {x : Expansion} : ¬ x.isLexical = true ↔ d.lexicalText? x = none := by
  cases x <;> simp [lexicalText?, Expansion.isLexical]

theorem supply_leaf {text : List Segment} (htext : d.lexicalText? r.expansion = some text) :
    d.supply (.node X r ts) = leafCandidate d.vocabulary (d.symbolName X) r.semantic
      (r.insertionCost.getD 0) text := by
  rw [supply, Derivation.fold_node, htext]

theorem supply_node (htext : d.lexicalText? r.expansion = none) : d.supply (.node X r ts) =
    ((ts.map d.supply).mapM id >>=
      composedCandidate d.vocabulary (d.symbolName X) r.semantic) := by
  rw [supply, Derivation.fold_node, htext]

theorem supply_node_eq_ok_iff (htext : d.lexicalText? r.expansion = none) :
    d.supply (.node X r ts) = .ok c ↔ ∃ parts, ts.map d.supply = parts.map .ok ∧
      composedCandidate d.vocabulary (d.symbolName X) r.semantic parts = .ok c := by
  rw [supply_node htext, Outcome.bind_eq_ok_iff]
  simp only [Outcome.mapM_id_eq_ok_iff]

/-- A rule over symbols supplies nothing by itself. -/
theorem needed_of_lexical {x : Expansion} (h : x.isLexical = true) : x.needed = [] := by
  cases x <;> simp_all [Expansion.isLexical, Expansion.needed]

/-- The fields of a candidate are those of the derivation. -/
structure Backs (d : Draft) (t : Derivation SymbolId Rule) (c : Candidate) : Prop where
  cost : c.cost = supplyCost t
  size : c.size = supplySize t
  text : c.text = t.yield d.supplying
  semantic : d.composed t = .ok c.semantic
  tree : c.tree = d.provenance t

/-- What every candidate has of its derivation, the candidates for the parts have of theirs. -/
theorem map_eq_of_supply {α : Type} {f : Derivation SymbolId Rule → α} {g : Candidate → α}
    {parts : List Candidate} (h : ts.map d.supply = parts.map .ok)
    (hfg : ∀ t ∈ ts, ∀ c, d.supply t = .ok c → f t = g c) : ts.map f = parts.map g := by
  induction ts generalizing parts with
  | nil =>
    rw [List.map_eq_nil_iff.mp h.symm]
    rfl
  | cons t ts ih =>
    obtain ⟨c, cs, rfl, hc, hcs⟩ := List.map_eq_cons_iff.mp h.symm
    rw [List.map_cons, List.map_cons, hfg t (by simp) c hc.symm,
      ih hcs.symm fun u hu => hfg u (List.mem_cons_of_mem _ hu)]

theorem backs_leaf {text : List Segment} (htext : d.lexicalText? r.expansion = some text)
    (h : d.supply (.node X r []) = .ok c) : d.Backs (.node X r []) c := by
  rw [supply_leaf htext] at h
  obtain ⟨semantic, hsemantic, h⟩ := Outcome.ok_of_bind h
  cases h
  constructor
  · rw [supplyCost_node, if_pos (isLexical_of_text htext)]
  · rw [supplySize_node]
    rfl
  · simp [supplying, htext]
  · rw [composed_node]
    exact hsemantic
  · rw [provenance_node, htext]
    rfl

theorem backs_node (htext : d.lexicalText? r.expansion = none) {parts : List Candidate}
    (hparts : ts.map d.supply = parts.map .ok)
    (hbacks : ∀ t ∈ ts, ∀ c, d.supply t = .ok c → d.Backs t c)
    (h : composedCandidate d.vocabulary (d.symbolName X) r.semantic parts = .ok c) :
    d.Backs (.node X r ts) c := by
  have hsemantics : ts.map d.composed = (parts.map (·.semantic)).map .ok := by
    rw [List.map_map]
    exact map_eq_of_supply hparts fun t ht c hc => (hbacks t ht c hc).semantic
  obtain ⟨inner, hinner, h⟩ := Outcome.ok_of_bind h
  obtain ⟨semantic, hsemantic, h⟩ := Outcome.ok_of_bind h
  cases h
  constructor
  · rw [supplyCost_node, if_neg (not_isLexical_iff.mpr htext),
      map_eq_of_supply hparts fun t ht c hc => (hbacks t ht c hc).cost.symm, List.foldl_map]
  · rw [supplySize_node,
      map_eq_of_supply hparts fun t ht c hc => (hbacks t ht c hc).size.symm, List.foldl_map]
  · rw [Derivation.yield_node, List.flatMap_def, List.flatMap_def,
      map_eq_of_supply hparts fun t ht c hc => (hbacks t ht c hc).text.symm]
    simp [supplying, htext]
  · rw [composed_node, Outcome.mapM_id_eq_ok_iff.mpr hsemantics]
    exact Outcome.bind_eq_ok_iff.mpr ⟨_, rfl, Outcome.bind_eq_ok_iff.mpr ⟨inner, hinner, hsemantic⟩⟩
  · rw [provenance_node, htext,
      map_eq_of_supply hparts fun t ht c hc => (hbacks t ht c hc).tree.symm]
    rfl

theorem backs_of_supply (ht : t.Valid d.supplying) (h : d.supply t = .ok c) : d.Backs t c := by
  induction ht generalizing c with
  | @node X r ts hrule hparts _ ih =>
    cases htext : d.lexicalText? r.expansion with
    | some text =>
      have hnone : ts.map Derivation.symbol = [] :=
        hparts.trans (needed_of_lexical (isLexical_of_text htext))
      rw [List.map_eq_nil_iff.mp hnone] at h ⊢
      exact backs_leaf htext h
    | none =>
      obtain ⟨parts, hsupplied, hmade⟩ := (supply_node_eq_ok_iff htext).mp h
      exact backs_node htext hsupplied (fun t ht c hc => ih t ht hc) hmade

/-! ### Candidates found -/

theorem Supplied.exists_supply (h : d.Supplied X c) :
    ∃ t, t.Valid d.supplying ∧ t.symbol = X ∧ d.supply t = .ok c := by
  induction h with
  | @lexical X r text cost c hrule hplain hshows hpriced hmade =>
    have hcan : r.CanSupply := by
      unfold Rule.CanSupply
      cases hx : r.expansion <;> simp_all [lexicalText?]
    have hnone : r.expansion.needed = [] := needed_of_lexical (isLexical_of_text hshows)
    refine ⟨.node X r [], .node ⟨hrule, hplain, hcan⟩ hnone.symm (by simp), rfl, ?_⟩
    rw [supply_leaf hshows, hpriced]
    exact hmade
  | @unary X part r inner c hrule hplain hx _ hmade ih =>
    obtain ⟨t, ht, hsymbol, hsupply⟩ := ih
    refine ⟨.node X r [t], .node ⟨hrule, hplain, ?_⟩ ?_ (by simpa using ht), rfl, ?_⟩
    · rw [Rule.CanSupply, hx]
    · simp [supplying, hx, Expansion.needed, hsymbol]
    · exact (supply_node_eq_ok_iff (by rw [hx]; rfl)).mpr ⟨[inner], by simp [hsupply], hmade⟩
  | @binary X first second r cost excluded a b c hrule hplain hx hallowed _ _ hmade iha ihb =>
    obtain ⟨t, ht, hfirst, ha⟩ := iha
    obtain ⟨u, hu, hsecond, hb⟩ := ihb
    refine ⟨.node X r [t, u], .node ⟨hrule, hplain, ?_⟩ ?_ (by simpa using ⟨ht, hu⟩), rfl, ?_⟩
    · rw [Rule.CanSupply, hx]
      exact hallowed
    · simp [supplying, hx, Expansion.needed, hfirst, hsecond]
    · exact (supply_node_eq_ok_iff (by rw [hx]; rfl)).mpr ⟨[a, b], by simp [ha, hb], hmade⟩

/-- Every candidate that is found belongs to an insertion derivation of its symbol. -/
theorem candidates_backed (h : (X, c) ∈ d.candidates) :
    ∃ t, t.Valid d.supplying ∧ t.symbol = X ∧ d.Backs t c := by
  obtain ⟨t, ht, hsymbol, hsupply⟩ := (d.sourced_candidates (X, c) h).exists_supply
  exact ⟨t, ht, hsymbol, backs_of_supply ht hsupply⟩

/-- A greeting of two words, each with a cost and an argument of its own. -/
def greeting : Draft where
  symbols := [
    { name := startName, rules := [{ expansion := .binary ⟨1⟩ ⟨2⟩ none {} }] },
    { name := "[hello]"
      rules := [{ expansion := .terminal "hello" .verbatim, insertionCost := some 1.5
                  semantic := some (.fixed [.mk ⟨0⟩ []]) }] },
    { name := "[you]"
      rules := [{ expansion := .terminal "you" .verbatim, insertionCost := some 0.25
                  semantic := some (.fixed [.mk ⟨1⟩ []]) }] }]
  vocabulary := { definitions := [.argument "hello", .argument "you"] }

theorem greeting_backed : ∃ c, (start, c) ∈ greeting.candidates ∧
    c.text = [.literal "hello", .literal "you"] ∧ c.semantic = some [.mk ⟨0⟩ [], .mk ⟨1⟩ []] ∧
    ∃ t, t.Valid greeting.supplying ∧ t.symbol = start ∧ greeting.Backs t c := by
  have hfields : (greeting.candidates.lookup start).map (fun c => (c.text, c.semantic)) =
      some ([.literal "hello", .literal "you"], some [.mk ⟨0⟩ [], .mk ⟨1⟩ []]) := by
    decide +kernel
  obtain ⟨c, hlookup, hc⟩ := Option.map_eq_some_iff.mp hfields
  obtain ⟨htext, hsemantic⟩ := Prod.mk.inj hc
  obtain ⟨before, after, heq, -⟩ := List.lookup_eq_some_iff.mp hlookup
  have hmem : (start, c) ∈ greeting.candidates := by simp [heq]
  exact ⟨c, hmem, htext, hsemantic, candidates_backed hmem⟩

end Draft

end QueryGrammar
