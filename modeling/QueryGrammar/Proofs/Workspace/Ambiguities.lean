import Mathlib.Data.List.Sort
import QueryGrammar.Finish.Ambiguity
import QueryGrammar.Proofs.Text.Quoted
import QueryGrammar.Proofs.Workspace.Snapshot
/-!
The report on shared right-hand sides. Right-hand sides are compared as they are written, and what
they are written with tells them apart: a quoted term begins with a quote, a category with a brace,
a symbol with another bracket, and in a draft that calls lead to, the names of what is live belong
to one symbol and to one category each. So the report lists what rules really share.
-/
namespace QueryGrammar

namespace Expansion

/-- The same right-hand side, whatever is shown, priced or excluded: the same term, the same
category, or the same symbols in a row. -/
inductive SharesRhs : Expansion → Expansion → Prop where
  | terminal (term : String) (x y : DisplayText) : SharesRhs (.terminal term x) (.terminal term y)
  | placeholder (category : EntityCategoryId) :
      SharesRhs (.placeholder category) (.placeholder category)
  | parts {x y : Expansion} (parted : x.parts ≠ []) (same : x.parts = y.parts) : SharesRhs x y

theorem terminal_or_placeholder_or_parted (x : Expansion) :
    (∃ term text, x = .terminal term text) ∨ (∃ category, x = .placeholder category) ∨
      x.parts ≠ [] := by
  cases x <;> simp [Expansion.parts]

/-- What stands on a right-hand side. -/
def side : Expansion → (String ⊕ EntityCategoryId) ⊕ List SymbolId
  | .terminal term _ => .inl (.inl term)
  | .placeholder category => .inl (.inr category)
  | x => .inr x.parts

theorem side_of_parted {x : Expansion} (h : x.parts ≠ []) : x.side = .inr x.parts := by
  cases x with
  | terminal | placeholder => exact absurd rfl h
  | _ => rfl

theorem sharesRhs_iff {x y : Expansion} : x.SharesRhs y ↔ x.side = y.side := by
  constructor
  · rintro (⟨term, _, _⟩ | ⟨category⟩ | ⟨parted, same⟩)
    · rfl
    · rfl
    · rw [side_of_parted parted, side_of_parted (same ▸ parted), same]
  · intro h
    cases x with
    | terminal term text =>
      cases y <;> simp only [side, Sum.inl.injEq, reduceCtorEq] at h
      exact h ▸ .terminal ..
    | placeholder category =>
      cases y <;> simp only [side, Sum.inl.injEq, Sum.inr.injEq, reduceCtorEq] at h
      exact h ▸ .placeholder _
    | _ =>
      cases y <;> simp only [side, Sum.inr.injEq, reduceCtorEq] at h <;>
        exact .parts (by simp [Expansion.parts]) h

instance (x y : Expansion) : Decidable (x.SharesRhs y) :=
  decidable_of_iff _ sharesRhs_iff.symm

end Expansion

namespace Draft

variable {d : Draft}

/-! ### Right-hand sides as they are written -/

theorem rhsNames_of_parted {x : Expansion} (h : x.parts ≠ []) :
    d.rhsNames x = x.parts.map d.symbolName := by
  cases x with
  | terminal | placeholder => exact absurd rfl h
  | _ => rfl

/-- The character that what is written begins with. -/
def rhsMark (d : Draft) (x : Expansion) : Option Char :=
  (d.rhsNames x).head?.bind (·.toList.head?)

section Names

variable (hd : d.Consistent)
include hd

theorem Consistent.head_symbolName {X : SymbolId} (hX : X ∈ d.liveSymbols) :
    (d.symbolName X).toList.head? = some '[' ∨ (d.symbolName X).toList.head? = some '<' := by
  obtain ⟨s, hs⟩ := mem_liveSymbols_iff.mp hX
  rw [symbolName_of_get? hs]
  by_cases hhead : s.name.toList.head? = some '['
  · exact Or.inl hhead
  · obtain ⟨-, tokens, -, hname, -⟩ := hd.made X.index s (get?_eq_some_iff.mp hs).1 hhead
    exact Or.inr (hname ▸ head_rowName tokens)

theorem Consistent.rhsMark_of_parted {x : Expansion} (h : x.parts ≠ [])
    (hlive : ∀ Y ∈ x.parts, Y ∈ d.liveSymbols) :
    d.rhsMark x = some '[' ∨ d.rhsMark x = some '<' := by
  obtain ⟨Y, rest, hparts⟩ := List.exists_cons_of_ne_nil h
  have hmark : d.rhsMark x = (d.symbolName Y).toList.head? := by
    rw [rhsMark, rhsNames_of_parted h, hparts]
    rfl
  rw [hmark]
  exact hd.head_symbolName (hlive Y (by simp [hparts]))

end Names

theorem rhsMark_terminal {term : String} {text : DisplayText} :
    d.rhsMark (.terminal term text) = some '"' := by
  simp [rhsMark, rhsNames]

theorem rhsMark_placeholder {category : EntityCategoryId} (h : category ∈ d.liveEntityCategories) :
    d.rhsMark (.placeholder category) = some '\x7b' := by
  obtain ⟨c, hc⟩ := mem_liveEntityCategories_iff.mp h
  simp [rhsMark, rhsNames, (entityCategoryName_of_some hc).2, Name.entityCategory]

theorem entityCategoryName_inj (h : d.CategoriesOnce) {b c : EntityCategoryId}
    (hb : b ∈ d.liveEntityCategories) (hc : c ∈ d.liveEntityCategories)
    (heq : d.entityCategoryName b = d.entityCategoryName c) : b = c := by
  obtain ⟨s, hs⟩ := mem_liveEntityCategories_iff.mp hb
  obtain ⟨t, ht⟩ := mem_liveEntityCategories_iff.mp hc
  have hname : s.name = t.name := by
    rw [(entityCategoryName_of_some hs).2, (entityCategoryName_of_some ht).2] at heq
    exact entityCategory_injective heq
  have hsi := (Option.filter_eq_some_iff.mp hs).1
  have hti := (Option.filter_eq_some_iff.mp ht).1
  have hlt : b.index < (d.entityCategories.map (·.name)).length := by
    simpa using (List.getElem?_eq_some_iff.mp hsi).1
  have hindex : b.index = c.index := by
    refine (List.getElem?_inj hlt h).mp ?_
    rw [List.getElem?_map, List.getElem?_map, hsi, hti, Option.map_some, Option.map_some, hname]
  cases b
  cases c
  exact congrArg EntityCategoryId.mk hindex

/-- Everything that stands on the right-hand side is live. -/
structure LiveSide (d : Draft) (x : Expansion) : Prop where
  parts : ∀ Y ∈ x.parts, Y ∈ d.liveSymbols
  category : ∀ c, x = .placeholder c → c ∈ d.liveEntityCategories

theorem FitRule.liveSide {r : Rule} (h : d.FitRule r) : d.LiveSide r.expansion :=
  ⟨h.parts, h.category⟩

theorem eq_of_names_eq (hnames : (d.symbols.map (·.name)).Nodup) {xs ys : List SymbolId}
    (hxs : ∀ X ∈ xs, X ∈ d.liveSymbols) (hys : ∀ Y ∈ ys, Y ∈ d.liveSymbols)
    (h : xs.map d.symbolName = ys.map d.symbolName) : xs = ys := by
  induction xs generalizing ys with
  | nil => exact (List.map_eq_nil_iff.mp h.symm).symm
  | cons X xs ih =>
    obtain ⟨Y, ys, rfl, hhead, htail⟩ := List.map_eq_cons_iff.mp h.symm
    rw [List.forall_mem_cons] at hxs hys
    rw [symbolName_inj hnames hxs.1 hys.1 hhead.symm, ih hxs.2 hys.2 htail.symm]

section Sides

variable {x y : Expansion} (hx : d.LiveSide x) (hy : d.LiveSide y)
include hx hy

/-- What stands on a right-hand side is read off what it begins with. -/
theorem Consistent.sharesRhs_of_rhsNames_eq (hd : d.Consistent) (hcategories : d.CategoriesOnce)
    (h : d.rhsNames x = d.rhsNames y) : x.SharesRhs y := by
  have hmark : d.rhsMark x = d.rhsMark y := by rw [rhsMark, h, rhsMark]
  rcases x.terminal_or_placeholder_or_parted with ⟨term, text, rfl⟩ | ⟨category, rfl⟩ | hparted
  · rw [rhsMark_terminal] at hmark
    rcases y.terminal_or_placeholder_or_parted with ⟨term', text', rfl⟩ | ⟨_, rfl⟩ | hparted'
    · rw [rhsNames, rhsNames, List.cons.injEq] at h
      exact Text.quoted_injective h.1 ▸ .terminal ..
    · simp [rhsMark_placeholder (hy.category _ rfl)] at hmark
    · rcases hd.rhsMark_of_parted hparted' hy.parts with h' | h' <;> simp [h'] at hmark
  · rw [rhsMark_placeholder (hx.category _ rfl)] at hmark
    rcases y.terminal_or_placeholder_or_parted with ⟨_, _, rfl⟩ | ⟨category', rfl⟩ | hparted'
    · simp [rhsMark_terminal] at hmark
    · rw [rhsNames, rhsNames, List.cons.injEq] at h
      have hsame := entityCategoryName_inj hcategories (hx.category _ rfl) (hy.category _ rfl) h.1
      exact hsame ▸ .placeholder _
    · rcases hd.rhsMark_of_parted hparted' hy.parts with h' | h' <;> simp [h'] at hmark
  · have hbracket := hmark ▸ hd.rhsMark_of_parted hparted hx.parts
    rcases y.terminal_or_placeholder_or_parted with ⟨_, _, rfl⟩ | ⟨_, rfl⟩ | hparted'
    · simp [rhsMark_terminal] at hbracket
    · simp [rhsMark_placeholder (hy.category _ rfl)] at hbracket
    · rw [rhsNames_of_parted hparted, rhsNames_of_parted hparted'] at h
      exact .parts hparted (eq_of_names_eq hd.names hx.parts hy.parts h)

end Sides

theorem rhsNames_eq_of_sharesRhs {x y : Expansion} (h : x.SharesRhs y) :
    d.rhsNames x = d.rhsNames y := by
  cases h with
  | terminal | placeholder => rfl
  | parts parted same => rw [rhsNames_of_parted parted, rhsNames_of_parted (same ▸ parted), same]

/-! ### The report -/

theorem ambiguity_isUpTo_iff {a b : Ambiguity} : a.isUpTo b = true ↔
    a.symbol < b.symbol ∨ a.symbol = b.symbol ∧ ¬ b.rhs < a.rhs := by
  simp [Ambiguity.isUpTo]

theorem ambiguity_isUpTo_trans (a b c : Ambiguity) (hab : a.isUpTo b = true)
    (hbc : b.isUpTo c = true) : a.isUpTo c = true := by
  rw [ambiguity_isUpTo_iff] at hab hbc ⊢
  rcases hab with hab | ⟨hab, hrhs⟩
  · rcases hbc with hbc | ⟨hbc, -⟩
    · exact Or.inl (lt_trans hab hbc)
    · exact Or.inl (hbc ▸ hab)
  · rcases hbc with hbc | ⟨hbc, hrhs'⟩
    · exact Or.inl (hab ▸ hbc)
    · have hle := List.le_trans (List.not_lt.mp hrhs) (List.not_lt.mp hrhs')
      exact Or.inr ⟨hab.trans hbc, List.not_lt.mpr hle⟩

theorem ambiguity_isUpTo_total (a b : Ambiguity) : (a.isUpTo b || b.isUpTo a) = true := by
  rw [Bool.or_eq_true, ambiguity_isUpTo_iff, ambiguity_isUpTo_iff]
  rcases lt_trichotomy a.symbol b.symbol with h | h | h
  · exact Or.inl (Or.inl h)
  · rcases List.le_total a.rhs b.rhs with h' | h'
    · exact Or.inl (Or.inr ⟨h, List.not_lt.mpr h'⟩)
    · exact Or.inr (Or.inr ⟨h.symm, List.not_lt.mpr h'⟩)
  · exact Or.inr (Or.inl h)

theorem mem_ambiguitiesOf_iff {X : SymbolId} {a : Ambiguity} :
    a ∈ d.ambiguitiesOf X ↔ a.symbol = d.symbolName X ∧
      a.rules = (d.rules X).countP (d.rhsNames ·.expansion = a.rhs) ∧ 1 < a.rules := by
  have hcounts : ∀ rhs n, (rhs, n) ∈ Keyed.ofList (· + ·)
      ((d.rules X).map fun r => (d.rhsNames r.expansion, 1)) ↔
      n = (d.rules X).countP (d.rhsNames ·.expansion = rhs) ∧ 0 < n := by
    intro rhs n
    have hkeys : ((d.rules X).map fun r => (d.rhsNames r.expansion, 1)) =
        ((d.rules X).map (d.rhsNames ·.expansion)).map fun k => (k, 1) := by simp
    rw [hkeys, Keyed.mem_ofList_count_iff, List.countP_map]
    rfl
  simp only [ambiguitiesOf, List.mem_map, List.mem_filter, Prod.exists, hcounts, decide_eq_true_eq]
  constructor
  · rintro ⟨rhs, n, ⟨⟨hn, -⟩, hlt⟩, rfl⟩
    exact ⟨rfl, hn, hlt⟩
  · rintro ⟨hsymbol, hn, hlt⟩
    exact ⟨a.rhs, a.rules, ⟨⟨hn, by omega⟩, hlt⟩, by rw [← hsymbol]⟩

theorem mem_ambiguities_iff {a : Ambiguity} :
    a ∈ d.ambiguities ↔ ∃ X ∈ d.liveSymbols, a ∈ d.ambiguitiesOf X := by
  rw [ambiguities, (List.mergeSort_perm _ _).mem_iff, List.mem_flatMap]

/-- No symbol has two entries of one right-hand side. -/
theorem nodup_ambiguities (hnames : (d.symbols.map (·.name)).Nodup) :
    d.ambiguities.Pairwise fun a b => ¬ (a.symbol = b.symbol ∧ a.rhs = b.rhs) := by
  have hsymmetric : ∀ {a b : Ambiguity}, ¬ (a.symbol = b.symbol ∧ a.rhs = b.rhs) →
      ¬ (b.symbol = a.symbol ∧ b.rhs = a.rhs) := fun h h' => h ⟨h'.1.symm, h'.2.symm⟩
  rw [ambiguities, (List.mergeSort_perm _ _).pairwise_iff hsymmetric, List.pairwise_flatMap]
  constructor
  · -- Below one symbol the counts have one entry a right-hand side.
    intro X _
    have hkeys := (Keyed.ascending_ofList (· + ·)
      ((d.rules X).map fun r => (d.rhsNames r.expansion, 1))).nodup_keys
    rw [ambiguitiesOf, List.pairwise_map]
    exact ((List.pairwise_map.mp hkeys).filter _).imp fun hne h => hne h.2
  · refine d.nodup_liveSymbols.imp_of_mem fun {X Y} hX hY hne a ha b hb h => hne ?_
    have hname := (mem_ambiguitiesOf_iff.mp ha).1.symm.trans
      (h.1.trans (mem_ambiguitiesOf_iff.mp hb).1)
    exact symbolName_inj hnames hX hY hname

/-- Strictly ascending by symbol and right-hand side. -/
theorem ascending_ambiguities (hnames : (d.symbols.map (·.name)).Nodup) :
    d.ambiguities.Pairwise fun a b => a.symbol < b.symbol ∨ a.symbol = b.symbol ∧ a.rhs < b.rhs := by
  have hsorted := List.pairwise_mergeSort ambiguity_isUpTo_trans ambiguity_isUpTo_total
    (d.liveSymbols.flatMap d.ambiguitiesOf)
  refine List.Pairwise.imp₂ (fun a b hab hne => ?_) hsorted (nodup_ambiguities hnames)
  refine (ambiguity_isUpTo_iff.mp hab).imp_right fun ⟨hsymbol, hrhs⟩ => ⟨hsymbol, ?_⟩
  exact List.not_le.mp fun hle => hne ⟨hsymbol, List.le_antisymm (List.not_lt.mp hrhs) hle⟩

end Draft

/-- The report on what any calls lead to. Its entries ascend strictly by symbol and right-hand side,
and there is one for each right-hand side that several rules of a live symbol share, with the number
of these rules. The names in an entry belong to one symbol, and to one right-hand side. -/
theorem Built.ambiguities_exactly {ws : Workspace} (h : Built ws) :
    (ws.draft.ambiguities.Pairwise fun a b =>
      a.symbol < b.symbol ∨ a.symbol = b.symbol ∧ a.rhs < b.rhs) ∧
    (∀ a, a ∈ ws.draft.ambiguities ↔ ∃ X ∈ ws.draft.liveSymbols, ∃ r ∈ ws.draft.rules X,
      a.symbol = ws.draft.symbolName X ∧ a.rhs = ws.draft.rhsNames r.expansion ∧
      a.rules = (ws.draft.rules X).countP (·.expansion.SharesRhs r.expansion) ∧ 2 ≤ a.rules) ∧
    (∀ X ∈ ws.draft.liveSymbols, ∀ Y ∈ ws.draft.liveSymbols,
      ws.draft.symbolName X = ws.draft.symbolName Y → X = Y) ∧
    ∀ X, ∀ r ∈ ws.draft.rules X, ∀ Y, ∀ q ∈ ws.draft.rules Y,
      ws.draft.rhsNames r.expansion = ws.draft.rhsNames q.expansion ↔
        r.expansion.SharesRhs q.expansion := by
  have hd := h.consistent
  have hshares : ∀ X, ∀ r ∈ ws.draft.rules X, ∀ Y, ∀ q ∈ ws.draft.rules Y,
      ws.draft.rhsNames r.expansion = ws.draft.rhsNames q.expansion ↔
        r.expansion.SharesRhs q.expansion := fun X r hr Y q hq =>
    ⟨hd.sharesRhs_of_rhsNames_eq (hd.rules X r hr).liveSide (hd.rules Y q hq).liveSide
      h.categoriesOnce, Draft.rhsNames_eq_of_sharesRhs⟩
  have hcount : ∀ X, ∀ r ∈ ws.draft.rules X,
      (ws.draft.rules X).countP (ws.draft.rhsNames ·.expansion = ws.draft.rhsNames r.expansion) =
        (ws.draft.rules X).countP (·.expansion.SharesRhs r.expansion) := fun X r hr =>
    List.countP_congr fun q hq => by simp [hshares X q hq X r hr]
  refine ⟨Draft.ascending_ambiguities hd.names, fun a => ?_,
    fun X hX Y hY => Draft.symbolName_inj hd.names hX hY, hshares⟩
  simp only [Draft.mem_ambiguities_iff, Draft.mem_ambiguitiesOf_iff]
  constructor
  · rintro ⟨X, hX, hsymbol, hrules, hlt⟩
    have hpos : 0 < (ws.draft.rules X).countP (ws.draft.rhsNames ·.expansion = a.rhs) := by omega
    obtain ⟨r, hr, hrhs⟩ := List.countP_pos_iff.mp hpos
    have hrhs : ws.draft.rhsNames r.expansion = a.rhs := by simpa using hrhs
    exact ⟨X, hX, r, hr, hsymbol, hrhs.symm, by rw [hrules, ← hrhs, hcount X r hr], hlt⟩
  · rintro ⟨X, hX, r, hr, hsymbol, hrhs, hrules, hlt⟩
    exact ⟨X, hX, hsymbol, by rw [hrules, hrhs, hcount X r hr], hlt⟩

/-- A word that is accepted twice, shown differently. -/
def assents : Workspace :=
  let declared := ((Registration.newSymbol ["assent"]).perform {}).2
  let one := ((Registration.addRule ⟨1⟩ (.terminal "yes" .verbatim)).perform declared).2
  ((Registration.addRule ⟨1⟩ (.terminal "yes" (.replace "aye"))).perform one).2

theorem built_assents : Built assents :=
  have declared := Built.init.call (.register (.newSymbol ["assent"]))
  have one := declared.call (.register (.addRule ⟨1⟩ _))
  one.call (.register (.addRule ⟨1⟩ _))

theorem ambiguities_exactly_assents :
    Built assents ∧ ⟨"[assent]", ["\"yes\""], 2⟩ ∈ assents.draft.ambiguities := by
  refine ⟨built_assents, ((Built.ambiguities_exactly built_assents).2.1 _).mpr ?_⟩
  decide +kernel

end QueryGrammar
