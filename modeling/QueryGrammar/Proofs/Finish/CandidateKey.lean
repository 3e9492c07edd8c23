import QueryGrammar.Finish.Insertion
import QueryGrammar.Proofs.Document.Faithful
import QueryGrammar.Proofs.Semantic.Rendered
/-!
The key of a candidate writes its text, its semantics and its derivation one after another, with a
bar between them that may also stand inside them. It can be taken apart all the same: the text is an
array, which ends where it closes, and the derivation begins with a brace, which no written semantics
hold. The only thing lost is whether there are no semantics or an empty tree of them.
-/
namespace QueryGrammar

namespace Vocabulary

variable {v : Vocabulary}

/-! ### No brace in what is written of a tree -/

theorem brace_notMem_name (hv : v.Grown) {id : SemanticId} (hid : v.Registered id) :
    '\x7b' ∉ (v.name id).toList := by
  intro h
  have hpart := hv.isPart_name hid
  simp only [Name.isPart, Bool.and_eq_true, List.all_eq_true] at hpart
  exact absurd (hpart.2 _ h) (by decide)

mutual

theorem brace_notMem_renderNode (hv : v.Grown) : (n : Node) → (∀ id ∈ n.ids, v.Registered id) →
    '\x7b' ∉ (v.renderNode n).toList
  | .mk s [], h => by
    have hname := brace_notMem_name hv (h s (by simp [Node.ids]))
    rw [toList_renderNode, ending]
    split <;> simp [hname, render, renderNodes]
  | .mk s (n :: ns), h => by
    have hname := brace_notMem_name hv (h s (by simp [Node.ids]))
    have hids : ∀ id ∈ n.ids ++ Node.forestIds ns, v.Registered id := fun id hid =>
      h id (by rw [Node.ids, Node.forestIds]; exact List.mem_cons_of_mem _ hid)
    simp only [List.mem_append, or_imp, forall_and] at hids
    have hfirst := brace_notMem_renderNode hv n hids.1
    have hrest := brace_notMem_further hv ns hids.2
    rw [toList_renderNode, ending]
    simp [hname, hfirst, hrest, toList_render_cons]

theorem brace_notMem_further (hv : v.Grown) : (ns : List Node) →
    (∀ id ∈ Node.forestIds ns, v.Registered id) → '\x7b' ∉ v.further ns
  | [], _ => by simp [further]
  | n :: ns, h => by
    simp only [Node.forestIds, List.mem_append, or_imp, forall_and] at h
    have hfirst := brace_notMem_renderNode hv n h.1
    have hrest := brace_notMem_further hv ns h.2
    rw [further] at hrest
    simp [further, hfirst, hrest]

end

theorem brace_notMem_render (hv : v.Grown) {forest : Forest}
    (h : ∀ id ∈ Node.forestIds forest, v.Registered id) : '\x7b' ∉ (v.render forest).toList := by
  cases forest with
  | nil => simp [render, renderNodes]
  | cons n ns =>
    simp only [Node.forestIds, List.mem_append, or_imp, forall_and] at h
    rw [toList_render_cons]
    simp [brace_notMem_renderNode hv n h.1, brace_notMem_further hv ns h.2]

end Vocabulary

namespace Provenance

theorem exists_compact_eq (t : Provenance) : ∃ rest, t.toJson.compact = '\x7b' :: rest := by
  cases t
  rw [toJson, Json.record, List.cons_append, List.map_cons, Json.compact]
  exact ⟨_, rfl⟩

end Provenance

namespace Candidate

/-- What comes before the first of a character and what comes after it are read off the whole. -/
theorem append_inj_of_notMem {c : Char} {xs ys rest rest' : List Char} (hx : c ∉ xs) (hy : c ∉ ys)
    (h : xs ++ c :: rest = ys ++ c :: rest') : xs = ys ∧ rest = rest' := by
  have hbefore : ∀ {zs after : List Char}, c ∉ zs → (zs ++ c :: after).takeWhile (· != c) = zs := by
    intro zs after hz
    rw [List.takeWhile_append_of_pos fun z hmem => bne_iff_ne.mpr (ne_of_mem_of_not_mem hmem hz)]
    simp
  have heq : xs = ys := by rw [← hbefore hx, h, hbefore hy]
  subst heq
  exact ⟨rfl, (List.cons.inj (List.append_cancel_left h)).2⟩

variable {v : Vocabulary} {x y : List Segment} {f g : Option Forest} {t u : Provenance}

theorem toList_keyOf : (keyOf v x f t).toList =
    (Json.array (x.map Segment.toJson)).compact ++
      '|' :: ((v.render (f.getD [])).toList ++ '|' :: t.toJson.compact) := by
  cases f <;> simp [keyOf, Json.toCompact, Vocabulary.render, Vocabulary.renderNodes]

/-- Keys are the same exactly for the same text, derivation and semantics, where no semantics and an
empty tree pass for one. -/
theorem keyOf_eq_iff (hv : v.Grown)
    (hf : ∀ id ∈ Node.forestIds (f.getD []), v.Registered id)
    (hg : ∀ id ∈ Node.forestIds (g.getD []), v.Registered id) :
    keyOf v x f t = keyOf v y g u ↔ x = y ∧ f.getD [] = g.getD [] ∧ t = u := by
  constructor
  · intro h
    have hlist := congrArg String.toList h
    rw [toList_keyOf, toList_keyOf] at hlist
    have hplain : ∀ z : List Segment, (Json.array (z.map Segment.toJson)).Plain := fun z =>
      .array (plain_of_mem_map Segment.plain)
    have hbar : ∀ rest, Numeral.Ends ('|' :: rest) := fun rest => Json.ends_cons (by decide)
    obtain ⟨htext, hrest⟩ :=
      (hplain x).determined _ _ _ (hplain y) (hbar _) (hbar _) hlist
    obtain ⟨tree, htree⟩ := t.exists_compact_eq
    obtain ⟨tree', htree'⟩ := u.exists_compact_eq
    have hsplit : ((v.render (f.getD [])).toList ++ ['|']) ++ '\x7b' :: tree =
        ((v.render (g.getD [])).toList ++ ['|']) ++ '\x7b' :: tree' := by
      simpa [htree, htree'] using hrest
    obtain ⟨hsemantic, hcompact⟩ := append_inj_of_notMem
      (by simpa using Vocabulary.brace_notMem_render hv hf)
      (by simpa using Vocabulary.brace_notMem_render hv hg) hsplit
    refine ⟨?_, ?_, ?_⟩
    · exact List.map_injective_iff.mpr Segment.toJson_injective (Json.array.inj htext)
    · exact Vocabulary.render_inj hv hf hg (String.toList_inj.mp (List.append_cancel_right hsemantic))
    · refine Provenance.toJson_inj t u (Json.toCompact_injective t.plain u.plain ?_)
      rw [Json.toCompact, Json.toCompact, htree, htree', hcompact]
  · rintro ⟨rfl, hsemantic, rfl⟩
    apply String.toList_inj.mp
    rw [toList_keyOf, toList_keyOf, hsemantic]

end Candidate

end QueryGrammar
