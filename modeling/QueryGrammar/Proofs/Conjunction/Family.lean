import QueryGrammar.Proofs.Conjunction.Shape
import QueryGrammar.Proofs.Derivation.Tree
import QueryGrammar.Workspace.Conjunction
/-!
The grammar of a conjunction family over its operand and the connectives as tokens. Its derivations
are the shapes, written with the symbols of the family: a shape gives a derivation, every derivation
has a shape, and the tokens it reads are an operand and then a connective and an operand for each
separator. So what holds of shapes holds of the derivations.
-/
namespace QueryGrammar

/-- The rules of some symbols; all others are read as they are. -/
def Draft.expanding (d : Draft) (own : SymbolId → Prop) :
    Productions SymbolId (SymbolId ⊕ Rule) SymbolId Attachment where
  has X := Sum.elim (fun Y => X = Y ∧ ¬ own X) fun r => own X ∧ r ∈ d.rules X
  parts := Sum.elim (fun _ => []) fun r => r.expansion.parts
  tokens := Sum.elim (fun Y => [Y]) fun _ => []
  attached := Sum.elim (fun _ => []) fun r => r.semantic.toList

namespace Conjunction

/-- The symbols of a family, in the order of registration. -/
inductive Part where
  | root
  | andGroup
  | andTail
  | andOption
  | orGroup
  | orTail
  deriving DecidableEq

def Part.name (names : FamilyNames) : Part → String
  | root => names.root
  | andGroup => names.andGroup
  | andTail => names.andTail
  | andOption => names.andOption
  | orGroup => names.orGroup
  | orTail => names.orTail

def separatorOf (c : Connectives) : Separator → SymbolId
  | .and => c.and
  | .or => c.or
  | .comma => c.comma

structure Family where
  operand : SymbolId
  connectives : Connectives
  symbol : Part → SymbolId

/-! ### Its rules -/

def single (part : SymbolId) : Rule where
  expansion := .unary part false

/-- A connective, which may be supplied, and what follows it, which may not. -/
def after (connective part : SymbolId) : Rule where
  expansion := .binary connective part none { second := true }

def joining (function : SemanticId) (first rest : SymbolId) : Rule where
  expansion := .binary first rest none { first := true }
  semantic := some (.deferred [function])

namespace Family

def rules (f : Family) : Part → List Rule
  | .root => [single f.operand, single (f.symbol .andGroup), single (f.symbol .orGroup)]
  | .andGroup => [joining f.connectives.intersect f.operand (f.symbol .andTail)]
  | .andTail => [after f.connectives.and f.operand, after f.connectives.and (f.symbol .andGroup),
      after f.connectives.comma (f.symbol .andGroup)]
  | .andOption => [single f.operand, single (f.symbol .andGroup)]
  | .orGroup => [joining f.connectives.union (f.symbol .andOption) (f.symbol .orTail)]
  | .orTail => [after f.connectives.or (f.symbol .andOption),
      after f.connectives.or (f.symbol .orGroup), after f.connectives.comma (f.symbol .orGroup)]

/-- The family over its operand and the connectives, with the rules that a draft has for it. -/
def grammar (f : Family) (d : Draft) : Productions SymbolId (SymbolId ⊕ Rule) SymbolId Attachment :=
  d.expanding fun X => ∃ p, X = f.symbol p

/-- The operand, and for each separator a connective and the operand again. -/
def sentence (f : Family) (seps : List Separator) : List SymbolId :=
  f.operand :: seps.flatMap fun s => [separatorOf f.connectives s, f.operand]

/-- A family whose symbols are all different, and different from what it reads. -/
structure Separate (f : Family) : Prop where
  symbols : Function.Injective f.symbol
  operand : ∀ p, f.operand ≠ f.symbol p
  separators : ∀ s p, separatorOf f.connectives s ≠ f.symbol p
  distinct : Function.Injective (separatorOf f.connectives)
  functions : f.connectives.intersect ≠ f.connectives.union

end Family

abbrev Tree := Derivation SymbolId (SymbolId ⊕ Rule)

/-- The semantics that a rule attaches. -/
def carried : SymbolId ⊕ Rule → List SemanticId :=
  Sum.elim (fun _ => []) fun r => (r.semantic.map Attachment.ids).getD []

/-- The functions that rules apply to their parts. A connective means nothing, so that a rule
without a function means what its last part means. -/
def reading : Tree → Reading :=
  Derivation.fold fun _ r parts =>
    match carried r with
    | function :: _ => .applied function parts
    | [] => parts.getLastD .operand

/-- What a family is to read, and how. -/
structure Family.Reads (f : Family) (d : Draft) : Prop where
  /-- All rows of operands with separators between them, the last of which is no comma. -/
  language : ∀ w, (∃ t : Tree, t.Valid (f.grammar d) ∧ t.symbol = f.symbol .root ∧
      t.yield (f.grammar d) = w) ↔
    ∃ seps : List Separator, seps.getLast? ≠ some .comma ∧ w = f.sentence seps
  /-- A single derivation, unless all three separators occur. -/
  unique : ∀ seps : List Separator, seps.getLast? ≠ some .comma →
    (Separator.comma ∉ seps ∨ Separator.or ∉ seps ∨ Separator.and ∉ seps) →
    ∃! t : Tree, t.Valid (f.grammar d) ∧ t.symbol = f.symbol .root ∧
      t.yield (f.grammar d) = f.sentence seps
  /-- No union below an intersection. -/
  binding : ∀ t : Tree, t.Valid (f.grammar d) → ∀ X r ts, (Derivation.node X r ts).Within t →
    f.connectives.intersect ∈ carried r → ∀ a ∈ (Derivation.node X r ts).applications,
      f.connectives.union ∉ carried a.2
  /-- Without commas, the union of the runs that "and" joins. -/
  runs : ∀ (t : Tree) (seps : List Separator), t.Valid (f.grammar d) →
    t.symbol = f.symbol .root → t.yield (f.grammar d) = f.sentence seps → Separator.comma ∉ seps →
    reading t = runsReading f.connectives.intersect f.connectives.union seps

/-! ### Shapes as derivations -/

def token (X : SymbolId) : Tree := .node X (.inl X) []

namespace Family

variable (f : Family)

def singleTree (p : Part) (t : Tree) : Tree :=
  .node (f.symbol p) (.inr (single t.symbol)) [t]

def afterTree (p : Part) (s : Separator) (t : Tree) : Tree :=
  .node (f.symbol p) (.inr (after (separatorOf f.connectives s) t.symbol))
    [token (separatorOf f.connectives s), t]

def joiningTree (p : Part) (function : SemanticId) (t u : Tree) : Tree :=
  .node (f.symbol p) (.inr (joining function t.symbol u.symbol)) [t, u]

def andTailTree : List Link → Tree
  | [] => f.afterTree .andTail .and (token f.operand)
  | link :: links => f.afterTree .andTail (link.separator .and)
      (f.joiningTree .andGroup f.connectives.intersect (token f.operand) (andTailTree links))

def andGroupTree (links : List Link) : Tree :=
  f.joiningTree .andGroup f.connectives.intersect (token f.operand) (f.andTailTree links)

def memberTree : Option (List Link) → Tree
  | none => f.singleTree .andOption (token f.operand)
  | some links => f.singleTree .andOption (f.andGroupTree links)

def orTailTree : List (Link × Option (List Link)) → Option (List Link) → Tree
  | [], last => f.afterTree .orTail .or (f.memberTree last)
  | (link, member) :: members, last => f.afterTree .orTail (link.separator .or)
      (f.joiningTree .orGroup f.connectives.union (f.memberTree member) (orTailTree members last))

def orGroupTree (first : Option (List Link)) (members : List (Link × Option (List Link)))
    (last : Option (List Link)) : Tree :=
  f.joiningTree .orGroup f.connectives.union (f.memberTree first) (f.orTailTree members last)

def shapeTree : Shape → Tree
  | .operand => f.singleTree .root (token f.operand)
  | .andGroup links => f.singleTree .root (f.andGroupTree links)
  | .orGroup first members last => f.singleTree .root (f.orGroupTree first members last)

variable {f} {d : Draft} {p : Part} {t u : Tree} {links : List Link} {member last : Option (List Link)}
  {members : List (Link × Option (List Link))} {shape : Shape} {seps : List Separator}

@[simp] theorem symbol_token (X : SymbolId) : (token X).symbol = X := rfl

@[simp] theorem symbol_singleTree : (f.singleTree p t).symbol = f.symbol p := rfl

@[simp] theorem symbol_afterTree {s : Separator} : (f.afterTree p s t).symbol = f.symbol p := rfl

@[simp] theorem symbol_joiningTree {function : SemanticId} :
    (f.joiningTree p function t u).symbol = f.symbol p := rfl

@[simp] theorem symbol_andTailTree : (f.andTailTree links).symbol = f.symbol .andTail := by
  cases links <;> rfl

@[simp] theorem symbol_andGroupTree : (f.andGroupTree links).symbol = f.symbol .andGroup := rfl

@[simp] theorem symbol_memberTree : (f.memberTree member).symbol = f.symbol .andOption := by
  cases member <;> rfl

@[simp] theorem symbol_orTailTree : (f.orTailTree members last).symbol = f.symbol .orTail := by
  cases members <;> rfl

@[simp] theorem symbol_orGroupTree :
    (f.orGroupTree member members last).symbol = f.symbol .orGroup := rfl

@[simp] theorem symbol_shapeTree : (f.shapeTree shape).symbol = f.symbol .root := by
  cases shape <;> rfl

/-! ### Shapes give derivations -/

section Valid

variable (hf : f.Separate) (hd : ∀ p, d.rules (f.symbol p) = f.rules p)

theorem valid_token {X : SymbolId} (hX : ∀ p, X ≠ f.symbol p) :
    (token X).Valid (f.grammar d) :=
  .node ⟨rfl, fun h => h.elim hX⟩ rfl (by simp)

include hd

theorem valid_node {r : Rule} {ts : List Tree} (hr : r ∈ f.rules p)
    (hparts : ts.map Derivation.symbol = r.expansion.parts)
    (hts : ∀ t ∈ ts, t.Valid (f.grammar d)) :
    (Derivation.node (f.symbol p) (.inr r) ts).Valid (f.grammar d) :=
  .node ⟨⟨p, rfl⟩, (hd p).symm ▸ hr⟩ hparts hts

theorem valid_singleTree (ht : t.Valid (f.grammar d)) (hr : single t.symbol ∈ f.rules p) :
    (f.singleTree p t).Valid (f.grammar d) :=
  valid_node hd hr rfl (by simpa using ht)

theorem valid_joiningTree {function : SemanticId} (ht : t.Valid (f.grammar d))
    (hu : u.Valid (f.grammar d)) (hr : joining function t.symbol u.symbol ∈ f.rules p) :
    (f.joiningTree p function t u).Valid (f.grammar d) :=
  valid_node hd hr rfl (by simpa using ⟨ht, hu⟩)

include hf

theorem valid_afterTree {s : Separator} (ht : t.Valid (f.grammar d))
    (hr : after (separatorOf f.connectives s) t.symbol ∈ f.rules p) :
    (f.afterTree p s t).Valid (f.grammar d) :=
  valid_node hd hr rfl (by simpa using ⟨valid_token (hf.separators s), ht⟩)

theorem valid_andTailTree (links : List Link) : (f.andTailTree links).Valid (f.grammar d) := by
  induction links with
  | nil => exact valid_afterTree hf hd (valid_token hf.operand) (by simp [rules, separatorOf])
  | cons link links ih =>
    refine valid_afterTree hf hd (valid_joiningTree hd (valid_token hf.operand) ih ?_) ?_
    · simp [rules]
    · cases link <;> simp [rules, Link.separator, separatorOf]

theorem valid_andGroupTree (links : List Link) : (f.andGroupTree links).Valid (f.grammar d) :=
  valid_joiningTree hd (valid_token hf.operand) (valid_andTailTree hf hd links) (by simp [rules])

theorem valid_memberTree (member : Option (List Link)) :
    (f.memberTree member).Valid (f.grammar d) := by
  cases member with
  | none => exact valid_singleTree hd (valid_token hf.operand) (by simp [rules])
  | some links => exact valid_singleTree hd (valid_andGroupTree hf hd links) (by simp [rules])

theorem valid_orTailTree (members : List (Link × Option (List Link)))
    (last : Option (List Link)) : (f.orTailTree members last).Valid (f.grammar d) := by
  induction members with
  | nil => exact valid_afterTree hf hd (valid_memberTree hf hd last) (by simp [rules, separatorOf])
  | cons entry members ih =>
    obtain ⟨link, member⟩ := entry
    refine valid_afterTree hf hd (valid_joiningTree hd (valid_memberTree hf hd member) ih ?_) ?_
    · simp [rules]
    · cases link <;> simp [rules, Link.separator, separatorOf]

theorem valid_shapeTree (shape : Shape) : (f.shapeTree shape).Valid (f.grammar d) := by
  cases shape with
  | operand => exact valid_singleTree hd (valid_token hf.operand) (by simp [rules])
  | andGroup links => exact valid_singleTree hd (valid_andGroupTree hf hd links) (by simp [rules])
  | orGroup first members last =>
    refine valid_singleTree hd (valid_joiningTree hd (valid_memberTree hf hd first)
      (valid_orTailTree hf hd members last) ?_) ?_
    · simp [rules]
    · simp [rules]

end Valid

/-! ### Derivations have shapes -/

/-- The derivation is one of a shape, or of the part of a shape that the symbol stands for. -/
def Formed (f : Family) (t : Tree) : Part → Prop
  | .root => ∃ shape, t = f.shapeTree shape
  | .andGroup => ∃ links, t = f.andGroupTree links
  | .andTail => ∃ links, t = f.andTailTree links
  | .andOption => ∃ member, t = f.memberTree member
  | .orGroup => ∃ first members last, t = f.orGroupTree first members last
  | .orTail => ∃ members last, t = f.orTailTree members last

theorem eq_token (ht : t.Valid (f.grammar d)) (hX : ∀ p, t.symbol ≠ f.symbol p) :
    t = token t.symbol := by
  cases ht with
  | @node X r ts hr hparts _ =>
    cases r with
    | inl Y =>
      obtain rfl : X = Y := hr.1
      rw [List.map_eq_nil_iff.mp hparts]
      rfl
    | inr r =>
      obtain ⟨p, hp⟩ := hr.1
      exact absurd hp (hX p)

section Formed

variable (hf : f.Separate) (hd : ∀ p, d.rules (f.symbol p) = f.rules p)
include hf

theorem eq_token_operand (ht : t.Valid (f.grammar d)) (h : t.symbol = f.operand) :
    t = token f.operand := by
  rw [← h]
  exact eq_token ht fun p => h ▸ hf.operand p

theorem eq_token_separator {s : Separator} (ht : t.Valid (f.grammar d))
    (h : t.symbol = separatorOf f.connectives s) : t = token (separatorOf f.connectives s) := by
  rw [← h]
  exact eq_token ht fun p => h ▸ hf.separators s p

omit hf in
theorem exists_of_single {Y : SymbolId} {ts : List Tree}
    (h : ts.map Derivation.symbol = [Y]) :
    ∃ t, ts = [t] ∧ t.symbol = Y :=
  List.map_eq_singleton_iff.mp h

theorem exists_of_after {s : Separator} {Y : SymbolId} {ts : List Tree}
    (h : ts.map Derivation.symbol = [separatorOf f.connectives s, Y])
    (hts : ∀ t ∈ ts, t.Valid (f.grammar d)) :
    ∃ t, ts = [token (separatorOf f.connectives s), t] ∧ t.symbol = Y := by
  obtain ⟨first, rest, rfl, hfirst, hrest⟩ := List.map_eq_cons_iff.mp h
  obtain ⟨t, rfl, ht⟩ := List.map_eq_singleton_iff.mp hrest
  rw [eq_token_separator hf (hts first (by simp)) hfirst]
  exact ⟨t, rfl, ht⟩

omit hf in
theorem exists_of_joining {Y Z : SymbolId} {ts : List Tree}
    (h : ts.map Derivation.symbol = [Y, Z]) :
    ∃ t u, ts = [t, u] ∧ t.symbol = Y ∧ u.symbol = Z := by
  obtain ⟨t, rest, rfl, ht, hrest⟩ := List.map_eq_cons_iff.mp h
  obtain ⟨u, rfl, hu⟩ := List.map_eq_singleton_iff.mp hrest
  exact ⟨t, u, rfl, ht, hu⟩

include hd

/-- Every derivation has a shape, by the rule that it begins with. -/
theorem formed (ht : t.Valid (f.grammar d)) : ∀ p, t.symbol = f.symbol p → f.Formed t p := by
  induction ht with
  | @node X r ts hr hparts hts ih =>
    intro p hp
    obtain rfl : X = f.symbol p := hp
    cases r with
    | inl Y => exact absurd ⟨p, rfl⟩ hr.2
    | inr r =>
      have hrule : r ∈ f.rules p := hd p ▸ hr.2
      cases p with
      | root =>
        simp only [rules, List.mem_cons, List.not_mem_nil, or_false] at hrule
        rcases hrule with rfl | rfl | rfl
        · obtain ⟨t, rfl, ht⟩ := exists_of_single hparts
          obtain rfl := eq_token_operand hf (hts t (by simp)) ht
          exact ⟨.operand, rfl⟩
        · obtain ⟨t, rfl, ht⟩ := exists_of_single hparts
          obtain ⟨links, rfl⟩ := ih t (by simp) .andGroup ht
          exact ⟨.andGroup links, rfl⟩
        · obtain ⟨t, rfl, ht⟩ := exists_of_single hparts
          obtain ⟨first, members, last, rfl⟩ := ih t (by simp) .orGroup ht
          exact ⟨.orGroup first members last, rfl⟩
      | andGroup =>
        obtain rfl := List.mem_singleton.mp hrule
        obtain ⟨t, u, rfl, ht, hu⟩ := exists_of_joining hparts
        obtain rfl := eq_token_operand hf (hts t (by simp)) ht
        obtain ⟨links, rfl⟩ := ih u (by simp) .andTail hu
        refine ⟨links, ?_⟩
        rw [andGroupTree, joiningTree, symbol_token, symbol_andTailTree]
      | andTail =>
        simp only [rules, List.mem_cons, List.not_mem_nil, or_false] at hrule
        rcases hrule with rfl | rfl | rfl
        · obtain ⟨t, rfl, ht⟩ := exists_of_after (s := .and) hf hparts hts
          obtain rfl := eq_token_operand hf (hts t (by simp)) ht
          exact ⟨[], rfl⟩
        · obtain ⟨t, rfl, ht⟩ := exists_of_after (s := .and) hf hparts hts
          obtain ⟨links, rfl⟩ := ih t (by simp) .andGroup ht
          exact ⟨.word :: links, rfl⟩
        · obtain ⟨t, rfl, ht⟩ := exists_of_after (s := .comma) hf hparts hts
          obtain ⟨links, rfl⟩ := ih t (by simp) .andGroup ht
          exact ⟨.comma :: links, rfl⟩
      | andOption =>
        simp only [rules, List.mem_cons, List.not_mem_nil, or_false] at hrule
        rcases hrule with rfl | rfl
        · obtain ⟨t, rfl, ht⟩ := exists_of_single hparts
          obtain rfl := eq_token_operand hf (hts t (by simp)) ht
          exact ⟨none, rfl⟩
        · obtain ⟨t, rfl, ht⟩ := exists_of_single hparts
          obtain ⟨links, rfl⟩ := ih t (by simp) .andGroup ht
          exact ⟨some links, rfl⟩
      | orGroup =>
        obtain rfl := List.mem_singleton.mp hrule
        obtain ⟨t, u, rfl, ht, hu⟩ := exists_of_joining hparts
        obtain ⟨first, rfl⟩ := ih t (by simp) .andOption ht
        obtain ⟨members, last, rfl⟩ := ih u (by simp) .orTail hu
        refine ⟨first, members, last, ?_⟩
        rw [orGroupTree, joiningTree, symbol_memberTree, symbol_orTailTree]
      | orTail =>
        simp only [rules, List.mem_cons, List.not_mem_nil, or_false] at hrule
        rcases hrule with rfl | rfl | rfl
        · obtain ⟨t, rfl, ht⟩ := exists_of_after (s := .or) hf hparts hts
          obtain ⟨last, rfl⟩ := ih t (by simp) .andOption ht
          refine ⟨[], last, ?_⟩
          rw [orTailTree, afterTree, symbol_memberTree]
          rfl
        · obtain ⟨t, rfl, ht⟩ := exists_of_after (s := .or) hf hparts hts
          obtain ⟨first, members, last, rfl⟩ := ih t (by simp) .orGroup ht
          exact ⟨(.word, first) :: members, last, rfl⟩
        · obtain ⟨t, rfl, ht⟩ := exists_of_after (s := .comma) hf hparts hts
          obtain ⟨first, members, last, rfl⟩ := ih t (by simp) .orGroup ht
          exact ⟨(.comma, first) :: members, last, rfl⟩

/-- Every derivation from the root has a shape. -/
theorem valid_root_iff : t.Valid (f.grammar d) ∧ t.symbol = f.symbol .root ↔
    ∃ shape, t = f.shapeTree shape := by
  constructor
  · rintro ⟨ht, hsymbol⟩
    exact formed hf hd ht .root hsymbol
  · rintro ⟨shape, rfl⟩
    exact ⟨valid_shapeTree hf hd shape, symbol_shapeTree⟩

end Formed

/-! ### What derivations read -/

/-- A connective and the operand for each separator. -/
def tail (f : Family) (seps : List Separator) : List SymbolId :=
  seps.flatMap fun s => [separatorOf f.connectives s, f.operand]

theorem sentence_eq : f.sentence seps = f.operand :: f.tail seps := rfl

@[simp] theorem tail_nil : f.tail [] = [] := rfl

@[simp] theorem tail_cons {s : Separator} :
    f.tail (s :: seps) = separatorOf f.connectives s :: f.operand :: f.tail seps := rfl

@[simp] theorem tail_append {rest : List Separator} :
    f.tail (seps ++ rest) = f.tail seps ++ f.tail rest :=
  List.flatMap_append

@[simp] theorem yield_token (X : SymbolId) : (token X).yield (f.grammar d) = [X] := by
  simp [token, grammar, Draft.expanding]

@[simp] theorem yield_singleTree : (f.singleTree p t).yield (f.grammar d) = t.yield (f.grammar d) := by
  simp [singleTree, grammar, Draft.expanding]

@[simp] theorem yield_afterTree {s : Separator} : (f.afterTree p s t).yield (f.grammar d) =
    separatorOf f.connectives s :: t.yield (f.grammar d) := by
  rw [afterTree, Derivation.yield_node, List.flatMap_cons, yield_token]
  simp [grammar, Draft.expanding]

@[simp] theorem yield_joiningTree {function : SemanticId} :
    (f.joiningTree p function t u).yield (f.grammar d) =
      t.yield (f.grammar d) ++ u.yield (f.grammar d) := by
  simp [joiningTree, grammar, Draft.expanding]

theorem yield_andTailTree : (f.andTailTree links).yield (f.grammar d) =
    f.tail (andSeparators links) := by
  induction links with
  | nil => rw [andTailTree, yield_afterTree, yield_token]; rfl
  | cons link links ih =>
    rw [andTailTree, yield_afterTree, yield_joiningTree, yield_token, ih]
    rfl

theorem yield_andGroupTree : (f.andGroupTree links).yield (f.grammar d) =
    f.sentence (andSeparators links) := by
  rw [andGroupTree, yield_joiningTree, yield_token, yield_andTailTree]
  rfl

theorem yield_memberTree : (f.memberTree member).yield (f.grammar d) =
    f.sentence (memberSeparators member) := by
  cases member with
  | none => rw [memberTree, yield_singleTree, yield_token]; rfl
  | some links => rw [memberTree, yield_singleTree, yield_andGroupTree]; rfl

theorem yield_orTailTree : (f.orTailTree members last).yield (f.grammar d) =
    f.tail (orSeparators members last) := by
  induction members with
  | nil =>
    rw [orTailTree, yield_afterTree, yield_memberTree]
    rfl
  | cons entry members ih =>
    obtain ⟨link, member⟩ := entry
    rw [orTailTree, yield_afterTree, yield_joiningTree, yield_memberTree, ih, orSeparators,
      tail_cons, tail_append, sentence_eq, List.cons_append]

theorem yield_shapeTree : (f.shapeTree shape).yield (f.grammar d) =
    f.sentence shape.separators := by
  cases shape with
  | operand => rw [shapeTree, yield_singleTree, yield_token]; rfl
  | andGroup links => rw [shapeTree, yield_singleTree, yield_andGroupTree]; rfl
  | orGroup first members last =>
    rw [shapeTree, yield_singleTree, orGroupTree, yield_joiningTree, yield_memberTree,
      yield_orTailTree, Shape.separators, sentence_eq, sentence_eq, tail_append, List.cons_append]

theorem sentence_injective (hf : f.Separate) : Function.Injective f.sentence := by
  intro a b hab
  have htail : f.tail a = f.tail b := (List.cons.inj hab).2
  clear hab
  induction a generalizing b with
  | nil => cases b <;> simp at htail ⊢
  | cons s a ih =>
    cases b with
    | nil => simp at htail
    | cons s' b =>
      rw [tail_cons, tail_cons] at htail
      obtain ⟨hs, hrest⟩ := List.cons.inj htail
      rw [hf.distinct hs, ih (List.cons.inj hrest).2]

/-! ### What they mean -/

theorem reading_singleTree : reading (f.singleTree p t) = reading t := by
  rw [singleTree, reading, Derivation.fold_node]
  rfl

theorem reading_afterTree {s : Separator} : reading (f.afterTree p s t) = reading t := by
  rw [afterTree, reading, Derivation.fold_node]
  rfl

theorem reading_joiningTree {function : SemanticId} :
    reading (f.joiningTree p function t u) = .applied function [reading t, reading u] := by
  rw [joiningTree, reading, Derivation.fold_node]
  rfl

theorem reading_andTailTree : reading (f.andTailTree links) =
    andReading f.connectives.intersect links.length := by
  induction links with
  | nil => rw [andTailTree, reading_afterTree]; rfl
  | cons link links ih =>
    rw [andTailTree, reading_afterTree, reading_joiningTree, ih, List.length_cons, andReading_succ]
    rfl

theorem reading_andGroupTree : reading (f.andGroupTree links) =
    memberReading f.connectives.intersect (some links) := by
  have hlength : (memberSeparators (some links)).length = links.length + 1 := by
    simp [memberSeparators, andSeparators]
  rw [andGroupTree, reading_joiningTree, reading_andTailTree, memberReading, hlength,
    andReading_succ]
  rfl

theorem reading_memberTree : reading (f.memberTree member) =
    memberReading f.connectives.intersect member := by
  cases member with
  | none => rw [memberTree, reading_singleTree]; rfl
  | some links => rw [memberTree, reading_singleTree, reading_andGroupTree]

theorem reading_orTailTree : reading (f.orTailTree members last) =
    orReading f.connectives.intersect f.connectives.union members last := by
  induction members with
  | nil => rw [orTailTree, reading_afterTree, reading_memberTree, orReading]
  | cons entry members ih =>
    obtain ⟨link, member⟩ := entry
    rw [orTailTree, reading_afterTree, reading_joiningTree, reading_memberTree, ih, orReading]

theorem reading_shapeTree : reading (f.shapeTree shape) =
    shape.reading f.connectives.intersect f.connectives.union := by
  cases shape with
  | operand => rw [shapeTree, reading_singleTree]; rfl
  | andGroup links => rw [shapeTree, reading_singleTree, reading_andGroupTree, Shape.reading]
  | orGroup first members last =>
    rw [shapeTree, reading_singleTree, orGroupTree, reading_joiningTree, reading_memberTree,
      reading_orTailTree, Shape.reading]

/-! ### What binds tighter -/

theorem applications_andTailTree (hf : f.Separate) (links : List Link) :
    ∀ a ∈ (f.andTailTree links).applications, f.connectives.union ∉ carried a.2 := by
  have htoken : ∀ X : SymbolId, ∀ a ∈ (token X).applications, f.connectives.union ∉ carried a.2 := by
    simp [token, carried]
  induction links with
  | nil =>
    simp only [andTailTree, afterTree, Derivation.applications_node, List.flatMap_cons,
      List.flatMap_nil, List.append_nil, List.forall_mem_cons, List.forall_mem_append]
    exact ⟨by simp [carried, after], htoken _, htoken _⟩
  | cons link links ih =>
    simp only [andTailTree, afterTree, joiningTree, Derivation.applications_node, List.flatMap_cons,
      List.flatMap_nil, List.append_nil, List.forall_mem_cons, List.forall_mem_append]
    exact ⟨by simp [carried, after], htoken _,
      by simp [carried, joining, Attachment.ids, hf.functions.symm], htoken _, ih⟩

theorem applications_andGroupTree (hf : f.Separate) (links : List Link) :
    ∀ a ∈ (f.andGroupTree links).applications, f.connectives.union ∉ carried a.2 := by
  simp only [andGroupTree, joiningTree, Derivation.applications_node, List.flatMap_cons,
    List.flatMap_nil, List.append_nil, List.forall_mem_cons, List.forall_mem_append]
  exact ⟨by simp [carried, joining, Attachment.ids, hf.functions.symm], by simp [token, carried],
    applications_andTailTree hf links⟩

/-- Only the rule of the and-group carries the intersection. -/
theorem eq_andGroup_of_carried (hf : f.Separate) {r : Rule} (hr : r ∈ f.rules p)
    (h : f.connectives.intersect ∈ carried (.inr r)) : p = .andGroup := by
  have hsingle : ∀ Y, f.connectives.intersect ∉ carried (.inr (single Y)) := by simp [carried, single]
  have hafter : ∀ Y Z, f.connectives.intersect ∉ carried (.inr (after Y Z)) := by
    simp [carried, after]
  cases p with
  | andGroup => rfl
  | orGroup =>
    obtain rfl := List.mem_singleton.mp hr
    exact absurd (List.mem_singleton.mp h) hf.functions
  | root | andTail | andOption | orTail =>
    simp only [rules, List.mem_cons, List.not_mem_nil, or_false] at hr
    rcases hr with rfl | rfl | rfl <;> simp_all

/-- A family with its rules reads what it is to read. -/
theorem Separate.reads (hf : f.Separate) (hd : ∀ p, d.rules (f.symbol p) = f.rules p) :
    f.Reads d where
  language w := by
    constructor
    · rintro ⟨t, ht, hsymbol, rfl⟩
      obtain ⟨shape, rfl⟩ := (valid_root_iff hf hd).mp ⟨ht, hsymbol⟩
      exact ⟨shape.separators, shape.getLast?_separators, yield_shapeTree⟩
    · rintro ⟨seps, hlast, rfl⟩
      obtain ⟨shape, rfl⟩ := exists_shape_iff.mpr hlast
      exact ⟨f.shapeTree shape, valid_shapeTree hf hd shape, symbol_shapeTree, yield_shapeTree⟩
  unique seps hlast hmissing := by
    obtain ⟨shape, rfl⟩ := exists_shape_iff.mpr hlast
    refine ⟨f.shapeTree shape, ⟨valid_shapeTree hf hd shape, symbol_shapeTree, yield_shapeTree⟩, ?_⟩
    rintro t ⟨ht, hsymbol, hyield⟩
    obtain ⟨other, rfl⟩ := (valid_root_iff hf hd).mp ⟨ht, hsymbol⟩
    have hseps : shape.separators = other.separators :=
      sentence_injective hf (hyield.symm.trans yield_shapeTree)
    rw [Shape.eq_of_separators hseps hmissing]
  binding t ht X r ts hwithin hcarried := by
    have hvalid := ht.within hwithin
    cases r with
    | inl Y => simp [carried] at hcarried
    | inr r =>
      obtain ⟨⟨p, rfl⟩, hr⟩ : (∃ p, X = f.symbol p) ∧ r ∈ d.rules X := by
        cases hvalid with
        | node hr _ _ => exact hr
      obtain rfl := eq_andGroup_of_carried hf (hd p ▸ hr) hcarried
      obtain ⟨links, heq⟩ := formed hf hd hvalid .andGroup rfl
      rw [heq]
      exact applications_andGroupTree hf links
  runs t seps ht hsymbol hyield hcomma := by
    obtain ⟨shape, rfl⟩ := (valid_root_iff hf hd).mp ⟨ht, hsymbol⟩
    obtain rfl : shape.separators = seps :=
      sentence_injective hf (yield_shapeTree.symm.trans hyield)
    rw [reading_shapeTree, Shape.reading_eq hcomma]

end Family

end Conjunction

end QueryGrammar
