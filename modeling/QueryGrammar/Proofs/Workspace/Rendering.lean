import QueryGrammar.Proofs.Named.Document
import QueryGrammar.Proofs.Workspace.LiveSemantics
/-!
Semantics written by a document and by the vocabulary. Both write a tree in the same way, but for
its leaves: an argument stands without parentheses, and the document knows the arguments that are
live only. So it writes a tree as the vocabulary does exactly if no leaf is an argument that has
been pruned.
-/
namespace QueryGrammar

namespace Node

mutual

/-- The semantics without children in a tree. -/
def leaves : Node → List SemanticId
  | mk s cs => if cs.isEmpty then [s] else forestLeaves cs

def forestLeaves : List Node → List SemanticId
  | [] => []
  | n :: ns => leaves n ++ forestLeaves ns

end

theorem leaves_branch (s : SemanticId) (c : Node) (cs : List Node) :
    (mk s (c :: cs)).leaves = forestLeaves (c :: cs) := by
  rw [leaves]
  rfl

mutual

theorem mem_ids_of_mem_leaves {id : SemanticId} : (n : Node) → id ∈ n.leaves → id ∈ n.ids
  | mk s cs, h => by
    rw [leaves] at h
    rw [ids, List.mem_cons]
    split at h
    · exact Or.inl (List.mem_singleton.mp h)
    · exact Or.inr (mem_forestIds_of_mem_forestLeaves cs h)

theorem mem_forestIds_of_mem_forestLeaves {id : SemanticId} : (ns : List Node) →
    id ∈ forestLeaves ns → id ∈ forestIds ns
  | [], h => absurd h List.not_mem_nil
  | n :: ns, h => by
    rw [forestLeaves, List.mem_append] at h
    rw [forestIds, List.mem_append]
    exact h.imp (mem_ids_of_mem_leaves n) (mem_forestIds_of_mem_forestLeaves ns)

end

end Node

namespace Vocabulary

/-- The semantic is an argument. -/
def isArg (v : Vocabulary) (id : SemanticId) : Bool := (v.get? id).any (·.isArg)

variable (v : Vocabulary) (s : SemanticId) (c : Node) (cs : List Node)

theorem renderNode_leaf :
    v.renderNode (.mk s []) = if v.isArg s then v.name s else v.name s ++ "()" := by
  rw [renderNode, renderNodes, isArg, List.isEmpty_nil, Bool.true_and, String.intercalate_nil,
    String.append_empty, String.append_assoc]
  rfl

theorem renderNode_branch : v.renderNode (.mk s (c :: cs)) =
    v.name s ++ "(" ++ String.intercalate "," (v.renderNodes (c :: cs)) ++ ")" := by
  rw [renderNode]
  rfl

end Vocabulary

theorem length_intercalate (separator : String) (texts : List String) :
    (separator.intercalate texts).length =
      (texts.map String.length).sum + (texts.length - 1) * separator.length := by
  induction texts with
  | nil => simp
  | cons text texts ih =>
    cases texts with
    | nil => simp
    | cons next texts =>
      rw [String.intercalate_cons_cons, String.length_append, String.length_append, ih]
      simp only [List.map_cons, List.sum_cons, List.length_cons, Nat.add_sub_cancel]
      rw [Nat.add_mul]
      omega

namespace Document

variable {g : Document} {v : Vocabulary}

theorem renderNode_leaf (g : Document) (v : Vocabulary) (s : SemanticId) :
    g.renderNode (v.namedNode (.mk s [])) =
      if g.isArg (v.name s) then v.name s else v.name s ++ "()" := by
  rw [Vocabulary.namedNode, Vocabulary.namedNodes, renderNode, renderNodes, List.isEmpty_nil,
    Bool.true_and, String.intercalate_nil, String.append_empty, String.append_assoc]
  rfl

theorem renderNode_branch (g : Document) (v : Vocabulary) (s : SemanticId) (c : Node)
    (cs : List Node) : g.renderNode (v.namedNode (.mk s (c :: cs))) =
      v.name s ++ "(" ++ String.intercalate "," (g.renderNodes (v.namedNodes (c :: cs))) ++
        ")" := by
  rw [Vocabulary.namedNode, renderNode, Vocabulary.namedNodes]
  rfl

/-- The leaf is an argument of which the document does not know. -/
def misses (g : Document) (v : Vocabulary) (id : SemanticId) : Bool :=
  v.isArg id && !g.isArg (v.name id)

theorem length_renderNodes_eq (g : Document) (v : Vocabulary) (ns : List Node) :
    (g.renderNodes (v.namedNodes ns)).length = (v.renderNodes ns).length := by
  induction ns with
  | nil => rfl
  | cons n ns ih =>
    rw [Vocabulary.namedNodes, renderNodes, Vocabulary.renderNodes, List.length_cons, ih,
      List.length_cons]

theorem length_renderNode_leaf {s : SemanticId}
    (h : g.isArg (v.name s) = true → v.isArg s = true) :
    (g.renderNode (v.namedNode (.mk s []))).length =
      (v.renderNode (.mk s [])).length + 2 * [s].countP (g.misses v) := by
  have hparentheses : "()".length = 2 := by decide
  rw [renderNode_leaf, Vocabulary.renderNode_leaf]
  cases hv : v.isArg s with
  | false =>
    have hg : g.isArg (v.name s) = false := by simpa [hv] using h
    simp [hg, hv, misses]
  | true => cases hg : g.isArg (v.name s) <;> simp [hg, hv, misses, hparentheses]

mutual

/-- Each argument that the document does not know is written with two parentheses more. -/
theorem length_renderNode : (n : Node) →
    (∀ id ∈ n.leaves, g.isArg (v.name id) = true → v.isArg id = true) →
    (g.renderNode (v.namedNode n)).length =
      (v.renderNode n).length + 2 * n.leaves.countP (g.misses v)
  | .mk s [], h => length_renderNode_leaf (h s (by simp [Node.leaves]))
  | .mk s (c :: cs), h => by
    rw [Node.leaves_branch] at h ⊢
    have hchildren := length_renderNodes (c :: cs) h
    have hsame := length_renderNodes_eq g v (c :: cs)
    rw [renderNode_branch, Vocabulary.renderNode_branch]
    simp only [String.length_append, length_intercalate, hchildren, hsame]
    omega

theorem length_renderNodes : (ns : List Node) →
    (∀ id ∈ Node.forestLeaves ns, g.isArg (v.name id) = true → v.isArg id = true) →
    ((g.renderNodes (v.namedNodes ns)).map String.length).sum =
      ((v.renderNodes ns).map String.length).sum + 2 * (Node.forestLeaves ns).countP (g.misses v)
  | [], _ => rfl
  | n :: ns, h => by
    simp only [Node.forestLeaves, List.forall_mem_append] at h
    rw [Vocabulary.namedNodes, renderNodes, Vocabulary.renderNodes, List.map_cons, List.sum_cons,
      List.map_cons, List.sum_cons, length_renderNode n h.1, length_renderNodes ns h.2,
      Node.forestLeaves, List.countP_append]
    omega

end

mutual

theorem renderNode_eq : (n : Node) → (∀ id ∈ n.leaves, g.isArg (v.name id) = v.isArg id) →
    g.renderNode (v.namedNode n) = v.renderNode n
  | .mk s [], h => by
    rw [renderNode_leaf, Vocabulary.renderNode_leaf, h s (by simp [Node.leaves])]
  | .mk s (c :: cs), h => by
    rw [Node.leaves_branch] at h
    rw [renderNode_branch, Vocabulary.renderNode_branch, renderNodes_eq (c :: cs) h]

theorem renderNodes_eq : (ns : List Node) →
    (∀ id ∈ Node.forestLeaves ns, g.isArg (v.name id) = v.isArg id) →
    g.renderNodes (v.namedNodes ns) = v.renderNodes ns
  | [], _ => rfl
  | n :: ns, h => by
    simp only [Node.forestLeaves, List.forall_mem_append] at h
    rw [Vocabulary.namedNodes, renderNodes, Vocabulary.renderNodes, renderNode_eq n h.1,
      renderNodes_eq ns h.2]

end

/-- A document that takes no other semantic for an argument writes a tree as the vocabulary does
exactly if it knows the arguments among its leaves. -/
theorem render_eq_iff {forest : Forest}
    (h : ∀ id ∈ Node.forestLeaves forest, g.isArg (v.name id) = true → v.isArg id = true) :
    g.render (v.namedNodes forest) = v.render forest ↔
      ∀ id ∈ Node.forestLeaves forest, v.isArg id = true → g.isArg (v.name id) = true := by
  constructor
  · intro heq id hid harg
    -- Two parentheses for each unknown argument are all that the texts can differ in, so their
    -- lengths tell whether there is one.
    have hlength := congrArg String.length heq
    rw [render, Vocabulary.render, length_intercalate, length_intercalate, length_renderNodes _ h,
      length_renderNodes_eq] at hlength
    have hnone : (Node.forestLeaves forest).countP (g.misses v) = 0 := by omega
    have hknown := List.countP_eq_zero.mp hnone id hid
    simpa [misses, harg] using hknown
  · intro hknown
    refine congrArg (String.intercalate ",") (renderNodes_eq forest fun id hid => ?_)
    exact Bool.eq_iff_iff.mpr ⟨h id hid, hknown id hid⟩

end Document

/-! ### Documents of drafts -/

/-- The row has these nodes, attached to it or to what it inserts. -/
inductive NamedRule.Shows (row : NamedRule) (nodes : List NamedNode) : Prop where
  | attached (semantic : row.semantic = some (.fixed nodes)) : Shows row nodes
  | inserted {i : NamedInsertion} (edit : row.edit = some (.insertion i))
      (semantic : i.semantic = some nodes) : Shows row nodes

/-- The rule has this forest, attached to it or to what it inserts. -/
inductive Rule.Shows (r : Rule) (forest : Forest) : Prop where
  | attached (semantic : r.semantic = some (.fixed forest)) : Shows r forest
  | inserted {i : Insertion} (edit : r.edit = some (.insertion i))
      (semantic : i.semantic = some forest) : Shows r forest

namespace Draft

variable {d : Draft} {X : SymbolId} {r : Rule} {forest : Forest}

/-- No argument among the leaves has been pruned. -/
def SparesArguments (d : Draft) (forest : Forest) : Prop :=
  ∀ id ∈ Node.forestLeaves forest, d.vocabulary.isArg id = true → id ∈ d.liveSemantics

/-- The document writes the forest as the vocabulary does. -/
def WritesAlike (d : Draft) (forest : Forest) : Prop :=
  (Document.ofDraft d).render (d.vocabulary.namedNodes forest) = d.vocabulary.render forest

/-- What a row shows is what its rule shows, by name. -/
theorem exists_of_shows {nodes : List NamedNode} (h : (d.namedRule r).Shows nodes) :
    ∃ forest, r.Shows forest ∧ d.vocabulary.namedNodes forest = nodes := by
  cases h with
  | attached semantic =>
    obtain ⟨a, ha, hnamed⟩ := Option.map_eq_some_iff.mp
      (show r.semantic.map d.vocabulary.namedAttachment = some (.fixed nodes) from semantic)
    cases a with
    | fixed forest => exact ⟨forest, .attached ha, NamedAttachment.fixed.inj hnamed⟩
    | deferred chain => cases hnamed
  | inserted edit semantic =>
    obtain ⟨i, hi, -, heq⟩ := insertion_of_namedRule edit
    obtain ⟨forest, hforest, hnamed⟩ := Option.map_eq_some_iff.mp (heq.symm.trans semantic)
    exact ⟨forest, .inserted hi hforest, hnamed⟩

section Consistent

variable (hd : d.Consistent)
include hd

/-- What a rule shows is attached to some rule. -/
theorem Consistent.attaches_of_shows (hr : r ∈ d.rules X) (h : r.Shows forest) {id : SemanticId}
    (hid : id ∈ Node.forestIds forest) : d.Attaches id := by
  cases h with
  | attached semantic => exact ⟨X, r, hr, _, semantic, hid⟩
  | inserted edit semantic =>
    obtain ⟨Y, q, a, hq, ha, hmem⟩ := (hd.edits X r hr _ edit).inserted _ forest rfl semantic id hid
    exact ⟨Y, q, hq.expands.1, a, ha, hmem⟩

/-- The arguments of the document are those that are live. -/
theorem Consistent.isArg_ofDraft_iff {id : SemanticId} (hid : id.index < d.vocabulary.size) :
    (Document.ofDraft d).isArg (d.vocabulary.name id) = true ↔
      id ∈ d.liveSemantics ∧ d.vocabulary.isArg id = true := by
  have hget : d.vocabulary.get? id = some d.vocabulary.definitions[id.index] :=
    List.getElem?_eq_getElem hid
  constructor
  · intro harg
    obtain ⟨traits, hfind, htraits⟩ := (Option.any_eq_true ..).mp harg
    obtain ⟨other, hlive, s, hs, hname, rfl⟩ :=
      hd.mem_semanticTraits_live_iff.mp (Keyed.mem_of_find? hfind)
    obtain rfl := Vocabulary.name_inj hd.definitions (mem_liveSemantics_iff.mp hlive).1 hid
      ((Vocabulary.name_of_get? hs).trans hname)
    exact ⟨hlive, (Option.any_eq_true ..).mpr ⟨s, hs, htraits⟩⟩
  · rintro ⟨hlive, harg⟩
    obtain ⟨s, hs, harg⟩ := (Option.any_eq_true ..).mp harg
    have hmem := hd.mem_semanticTraits_live_iff.mpr
      ⟨id, hlive, s, hs, (Vocabulary.name_of_get? hs).symm, rfl⟩
    have hfind := Keyed.find?_of_mem d.semanticTraits.ascending.nodup_keys hmem
    exact (Option.any_eq_true ..).mpr ⟨_, hfind, harg⟩

/-- The document writes registered semantics as the vocabulary does exactly if no argument among the
leaves has been pruned. -/
theorem Consistent.writesAlike_iff
    (hforest : ∀ id ∈ Node.forestIds forest, id.index < d.vocabulary.size) :
    d.WritesAlike forest ↔ d.SparesArguments forest := by
  have hknown : ∀ id ∈ Node.forestLeaves forest,
      ((Document.ofDraft d).isArg (d.vocabulary.name id) = true ↔
        id ∈ d.liveSemantics ∧ d.vocabulary.isArg id = true) :=
    fun id hid => hd.isArg_ofDraft_iff (hforest id (Node.mem_forestIds_of_mem_forestLeaves _ hid))
  rw [WritesAlike, Document.render_eq_iff fun id hid h => ((hknown id hid).mp h).2]
  constructor
  · intro h id hid harg
    exact ((hknown id hid).mp (h id hid harg)).1
  · intro h id hid harg
    exact (hknown id hid).mpr ⟨h id hid harg, harg⟩

/-- What is live is written alike. -/
theorem Consistent.writesAlike (hlive : ∀ id ∈ Node.forestIds forest, id ∈ d.liveSemantics) :
    d.WritesAlike forest := by
  refine (hd.writesAlike_iff fun id hid => (mem_liveSemantics_iff.mp (hlive id hid)).1).mpr ?_
  exact fun id hid _ => hlive id (Node.mem_forestIds_of_mem_forestLeaves _ hid)

theorem Consistent.writesAlike_iff_of_shows (hr : r ∈ d.rules X) (h : r.Shows forest) :
    d.WritesAlike forest ↔ d.SparesArguments forest :=
  hd.writesAlike_iff fun _ hid => hd.lt_of_attaches (hd.attaches_of_shows hr h hid)

/-- The nodes of a row of the document are those of a rule. -/
theorem Consistent.exists_of_hasRow_shows {name : String} {row : NamedRule} {nodes : List NamedNode}
    (hrow : (Document.ofDraft d).HasRow name row) (h : row.Shows nodes) :
    ∃ X, ∃ r ∈ d.rules X, ∃ forest, d.symbolName X = name ∧ d.namedRule r = row ∧
      r.Shows forest ∧ d.vocabulary.namedNodes forest = nodes := by
  obtain ⟨X, hname, r, hr, rfl⟩ := exists_rule_of_hasRow hd.names hrow
  obtain ⟨forest, hshows, hnodes⟩ := exists_of_shows h
  exact ⟨X, r, hr, forest, hname, rfl, hshows, hnodes⟩

end Consistent

end Draft

/-! ### Compiled documents -/

section Compiled

variable {modules : List ContentModule} {o : Options} {c : Compilation}

theorem consistent_finishedDraft (hmodules : ∀ m ∈ modules, m.Calls) :
    (finishedDraft modules o).Consistent :=
  ((Built.registerAll hmodules .init).call (.finish o)).consistent

/-- If no rule in use attaches a pruned semantic when the modules have registered, all that rules
show is written alike. -/
theorem writesAlike_of_compile (hmodules : ∀ m ∈ modules, m.Calls) (h : compile modules o = .ok c)
    (hlive : ∀ X r, (registeredDraft modules).filled.Applies X r → ∀ a, r.semantic = some a →
      ∀ id ∈ a.ids, id ∈ (registeredDraft modules).filled.liveSemantics)
    {X : SymbolId} {r : Rule} (hr : r ∈ (finishedDraft modules o).rules X) {forest : Forest}
    (hshows : r.Shows forest) : (finishedDraft modules o).WritesAlike forest := by
  have hd := consistent_finishedDraft hmodules (o := o)
  have hclosed := ((wellFormed_compile_iff hmodules h).mpr hlive).closed
  rw [grammar_of_compile h] at hclosed
  exact hd.writesAlike fun id hid => hd.attachesLive hclosed id (hd.attaches_of_shows hr hshows hid)

end Compiled

/-- The document of a workspace writes what is live as the vocabulary does, and other registered
semantics exactly if no argument among the leaves has been pruned. So it is with every row of a
compiled document, and all of them are written alike if no rule in use attaches what was pruned
while the modules registered. -/
theorem Built.writesAlike_exactly {ws : Workspace} (hws : Built ws) :
    (∀ forest, (∀ id ∈ Node.forestIds forest, id ∈ ws.draft.liveSemantics) →
      ws.draft.WritesAlike forest) ∧
    (∀ forest, (∀ id ∈ Node.forestIds forest, id.index < ws.draft.vocabulary.size) →
      (ws.draft.WritesAlike forest ↔ ws.draft.SparesArguments forest)) ∧
    ∀ (modules : List ContentModule) (o : Options) (c : Compilation), (∀ m ∈ modules, m.Calls) →
      compile modules o = .ok c →
        let d := finishedDraft modules o
        c.grammar = Document.ofDraft d ∧
        (∀ name row nodes, c.grammar.HasRow name row → row.Shows nodes →
          ∃ X, ∃ r ∈ d.rules X, ∃ forest, d.symbolName X = name ∧ d.namedRule r = row ∧
            r.Shows forest ∧ d.vocabulary.namedNodes forest = nodes ∧
            (d.WritesAlike forest ↔ d.SparesArguments forest)) ∧
        ((∀ X r, (registeredDraft modules).filled.Applies X r → ∀ a, r.semantic = some a →
          ∀ id ∈ a.ids, id ∈ (registeredDraft modules).filled.liveSemantics) →
            ∀ X, ∀ r ∈ d.rules X, ∀ forest, r.Shows forest → d.WritesAlike forest) := by
  refine ⟨fun _ => hws.consistent.writesAlike, fun _ => hws.consistent.writesAlike_iff, ?_⟩
  intro modules o c hmodules h
  have hd := consistent_finishedDraft hmodules (o := o)
  refine ⟨grammar_of_compile h, fun name row nodes hrow hshown => ?_, ?_⟩
  · rw [grammar_of_compile h] at hrow
    obtain ⟨X, r, hr, forest, hname, hrule, hshows, hnodes⟩ := hd.exists_of_hasRow_shows hrow hshown
    exact ⟨X, r, hr, forest, hname, hrule, hshows, hnodes, hd.writesAlike_iff_of_shows hr hshows⟩
  · exact fun hlive X r hr forest hshows => writesAlike_of_compile hmodules h hlive hr hshows

/-- A term whose semantic is live when the modules have registered. -/
theorem writesAlike_exactly_twoTerms : ∃ c, compile [twoTerms] {} = .ok c ∧
    ∃ r ∈ (finishedDraft [twoTerms] {}).rules Draft.start, r.Shows [.mk ⟨0⟩ []] ∧
      (finishedDraft [twoTerms] {}).WritesAlike [.mk ⟨0⟩ []] := by
  have hcalls : ∀ m ∈ [twoTerms], m.Calls := by simpa using twoTerms_calls
  have hok : (compile [twoTerms] {}).isOk = true := by decide +kernel
  cases hcompile : compile [twoTerms] {} with
  | error err => simp [hcompile, Except.isOk, Except.toBool] at hok
  | ok c =>
    have hcompiled := Built.init.writesAlike_exactly.2.2 [twoTerms] {} c hcalls hcompile
    have hrule : { expansion := .terminal "yo" .verbatim, semantic := some (.fixed [.mk ⟨0⟩ []]) } ∈
        (finishedDraft [twoTerms] {}).rules Draft.start :=
      List.mem_of_getElem? (i := 1) rfl
    refine ⟨c, rfl, _, hrule, .attached rfl, hcompiled.2.2 ?_ _ _ hrule _ (.attached rfl)⟩
    intro X r hr a ha id hid
    have hconsistent := (Built.registerAll hcalls .init).consistent.filled
    have hnone : (registeredDraft [twoTerms]).filled.prunedSemantics = [] := by decide +kernel
    rw [Draft.mem_liveSemantics_iff, hnone]
    exact ⟨(hconsistent.rules X r hr.expands.1).semantics a ha id hid, by simp⟩

/-- A pruned argument is attached to a term, which its document writes as a function. -/
theorem exists_not_writesAlike : ∃ (modules : List ContentModule) (c : Compilation),
    (∀ m ∈ modules, m.Calls) ∧ compile modules {} = .ok c ∧
      c.grammar = Document.ofDraft (finishedDraft modules {}) ∧
      ∃ r ∈ (finishedDraft modules {}).rules Draft.start, ∃ forest, r.Shows forest ∧
        c.grammar.render ((finishedDraft modules {}).vocabulary.namedNodes forest) = "s()" ∧
        (finishedDraft modules {}).vocabulary.render forest = "s" := by
  have hcalls : ∀ m ∈ [prunedTerms], m.Calls := by simpa using prunedTerms_calls
  have hok : (compile [prunedTerms] {}).isOk = true := by decide +kernel
  cases hcompile : compile [prunedTerms] {} with
  | error err => simp [hcompile, Except.isOk, Except.toBool] at hok
  | ok c =>
    have hgrammar := grammar_of_compile hcompile
    have hrule : { expansion := .terminal "yo" .verbatim, semantic := some (.fixed [.mk ⟨0⟩ []]) } ∈
        (finishedDraft [prunedTerms] {}).rules Draft.start := List.mem_of_getElem? (i := 1) rfl
    refine ⟨[prunedTerms], c, hcalls, hcompile, hgrammar, _, hrule, _, .attached rfl, ?_, ?_⟩
    · rw [hgrammar]
      decide +kernel
    · decide +kernel

end QueryGrammar
