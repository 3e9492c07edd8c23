import QueryGrammar.Proofs.Category.Lone
import QueryGrammar.Proofs.Finish.Used
/-!
Which symbols of a lone category are used, when some of its attachment points have been given a word.
Without a restriction to read, its conjunctions do not expand, and what was registered for them is
left over.
-/
namespace QueryGrammar

open Conjunction

namespace Draft

variable {d : Draft} {X Y Z : SymbolId} {r : Rule}

theorem expands_one (hr : r ∈ d.rules X) (hparts : r.expansion.parts = [Y]) (hY : d.Expands Y) :
    d.Expands X :=
  Productions.expands_iff.mpr ⟨r, hr,
    show ∀ W ∈ r.expansion.parts, d.Expands W by simpa [hparts] using hY⟩

theorem expands_two (hr : r ∈ d.rules X) (hparts : r.expansion.parts = [Y, Z]) (hY : d.Expands Y)
    (hZ : d.Expands Z) : d.Expands X :=
  Productions.expands_iff.mpr ⟨r, hr,
    show ∀ W ∈ r.expansion.parts, d.Expands W by simpa [hparts] using ⟨hY, hZ⟩⟩

theorem Occurs.applies_one (hX : d.Occurs X) (hr : r ∈ d.rules X) (hparts : r.expansion.parts = [Y])
    (hY : d.Expands Y) : d.Applies X r :=
  hX.applies hr (show ∀ W ∈ r.expansion.parts, d.Expands W by simpa [hparts] using hY)

theorem Occurs.applies_two (hX : d.Occurs X) (hr : r ∈ d.rules X)
    (hparts : r.expansion.parts = [Y, Z]) (hY : d.Expands Y) (hZ : d.Expands Z) : d.Applies X r :=
  hX.applies hr (show ∀ W ∈ r.expansion.parts, d.Expands W by simpa [hparts] using ⟨hY, hZ⟩)

theorem Applies.occurs (h : d.Applies X r) (hY : Y ∈ r.expansion.parts) : d.Occurs Y :=
  Productions.Applies.occurs_part h hY

/-- What can only be read over itself is never read. -/
theorem not_expands_of_stuck (stuck : SymbolId → Prop)
    (h : ∀ X r, stuck X → r ∈ d.rules X → ∃ Y ∈ r.expansion.parts, stuck Y) (hX : stuck X) :
    ¬ d.Expands X := by
  intro hexpands
  refine Productions.Expands.induction (P := fun X => ¬ stuck X) (fun X r hr hparts hX => ?_)
    hexpands hX
  obtain ⟨Y, hY, hstuck⟩ := h X r hX hr
  exact hparts Y hY hstuck

end Draft

/-! ### A family that is used -/

namespace Conjunction.Family

/-- The draft has the rules of the family, and what they read expands. -/
structure Fed (f : Family) (d : Draft) : Prop where
  rules : ∀ p, ∀ r ∈ f.rules p, r ∈ d.rules (f.symbol p)
  operand : d.Expands f.operand
  separators : ∀ s, d.Expands (separatorOf f.connectives s)

variable {f : Family} {d : Draft}

theorem Fed.expands (h : f.Fed d) (p : Part) : d.Expands (f.symbol p) := by
  have htail : d.Expands (f.symbol .andTail) :=
    Draft.expands_two (h.rules .andTail _ (.head _)) rfl (h.separators .and) h.operand
  have hoption : d.Expands (f.symbol .andOption) :=
    Draft.expands_one (h.rules .andOption _ (.head _)) rfl h.operand
  have horTail : d.Expands (f.symbol .orTail) :=
    Draft.expands_two (h.rules .orTail _ (.head _)) rfl (h.separators .or) hoption
  cases p with
  | root => exact Draft.expands_one (h.rules .root _ (.head _)) rfl h.operand
  | andGroup => exact Draft.expands_two (h.rules .andGroup _ (.head _)) rfl h.operand htail
  | andTail => exact htail
  | andOption => exact hoption
  | orGroup => exact Draft.expands_two (h.rules .orGroup _ (.head _)) rfl hoption horTail
  | orTail => exact horTail

theorem Fed.parts (h : f.Fed d) (p : Part) :
    ∀ r ∈ f.rules p, ∀ Y ∈ r.expansion.parts, d.Expands Y := by
  have hand : d.Expands f.connectives.and := h.separators .and
  have hor : d.Expands f.connectives.or := h.separators .or
  have hcomma : d.Expands f.connectives.comma := h.separators .comma
  cases p <;> simp [Family.rules, single, after, joining, Expansion.parts, h.operand, h.expands, hand, hor,
    hcomma]

theorem Fed.occurs (h : f.Fed d) (hroot : d.Occurs (f.symbol .root)) (p : Part) :
    d.Occurs (f.symbol p) := by
  have step : ∀ p r, r ∈ f.rules p → d.Occurs (f.symbol p) → ∀ Y ∈ r.expansion.parts, d.Occurs Y :=
    fun p r hr hp Y hY => (hp.applies (h.rules p r hr) (h.parts p r hr)).occurs_part hY
  have handGroup := step .root _ (.tail _ (.head _)) hroot _ (.head _)
  have horGroup := step .root _ (.tail _ (.tail _ (.head _))) hroot _ (.head _)
  cases p with
  | root => exact hroot
  | andGroup => exact handGroup
  | andTail => exact step .andGroup _ (.head _) handGroup _ (.tail _ (.head _))
  | andOption => exact step .orGroup _ (.head _) horGroup _ (.head _)
  | orGroup => exact horGroup
  | orTail => exact step .orGroup _ (.head _) horGroup _ (.tail _ (.head _))

/-- All rules of a family are applied where its root occurs. -/
theorem Fed.applies (h : f.Fed d) (hroot : d.Occurs (f.symbol .root)) {p : Part} {r : Rule}
    (hr : r ∈ f.rules p) : d.Applies (f.symbol p) r :=
  (h.occurs hroot p).applies (h.rules p r hr) (h.parts p r hr)

theorem Fed.occurs_operand (h : f.Fed d) (hroot : d.Occurs (f.symbol .root)) :
    d.Occurs f.operand :=
  (h.applies hroot (p := .root) (.head _)).occurs (.head _)

theorem Fed.occurs_separator (h : f.Fed d) (hroot : d.Occurs (f.symbol .root)) (s : Separator) :
    d.Occurs (separatorOf f.connectives s) := by
  cases s with
  | and => exact (h.applies hroot (p := .andTail) (.head _)).occurs (.head _)
  | or => exact (h.applies hroot (p := .orTail) (.head _)).occurs (.head _)
  | comma => exact (h.applies hroot (p := .andTail) (.tail _ (.tail _ (.head _)))).occurs (.head _)

end Conjunction.Family

namespace Category

/-- Where others give rules to a category. -/
inductive AttachmentPoint where
  | adjective
  | subjFilter
  | objFilter
  | passive
  deriving DecidableEq

def point (c : Category) : AttachmentPoint → SymbolId
  | .adjective => c.adjective
  | .subjFilter => c.subjFilter
  | .objFilter => c.objFilter
  | .passive => c.passive

/-- Whether there is something to read after a relative pronoun. -/
def Named (points : List AttachmentPoint) : Prop := .subjFilter ∈ points ∨ .objFilter ∈ points

/-- Whether there is a restriction to read at all. -/
def Restricted (points : List AttachmentPoint) : Prop := Named points ∨ .passive ∈ points

instance (points : List AttachmentPoint) : Decidable (Named points) :=
  inferInstanceAs (Decidable (_ ∨ _))

instance (points : List AttachmentPoint) : Decidable (Restricted points) :=
  inferInstanceAs (Decidable (_ ∨ _))

/-! ### Its rules -/

/-- What the attachment points are given, a word each. -/
def attachedRows (points : List AttachmentPoint) : List (SymbolId × Rule) :=
  points.mapIdx fun i p => (lone.point p, (Proposal.unary ⟨19 + i⟩).unaryRule ⟨19 + i⟩)

def startRow : SymbolId × Rule := (Draft.start, (Proposal.unary lone.plural).unaryRule lone.plural)

def rowsWith (points : List AttachmentPoint) : List (SymbolId × Rule) :=
  loneRows ++ attachedRows points ++ [startRow]

theorem mem_attachedRows_iff {points : List AttachmentPoint} {x : SymbolId × Rule} :
    x ∈ attachedRows points ↔ ∃ i p, points[i]? = some p ∧
      x = (lone.point p, (Proposal.unary ⟨19 + i⟩).unaryRule ⟨19 + i⟩) := by
  rw [attachedRows, List.mem_mapIdx]
  constructor
  · rintro ⟨i, hi, rfl⟩
    exact ⟨i, points[i], List.getElem?_eq_getElem hi, rfl⟩
  · rintro ⟨i, p, hp, rfl⟩
    obtain ⟨hi, rfl⟩ := List.getElem?_eq_some_iff.mp hp
    exact ⟨i, hi, rfl⟩

theorem point_injective : Function.Injective lone.point := by
  intro p q
  cases p <;> cases q <;> decide

theorem point_ne_start (p : AttachmentPoint) : lone.point p ≠ Draft.start := by
  cases p <;> decide

theorem ne_point_of_mem_rows {points : List AttachmentPoint} {p : AttachmentPoint}
    (hp : p ∉ points) : ∀ x ∈ rowsWith points, x.1 ≠ lone.point p := by
  intro x hx
  simp only [rowsWith, List.mem_append, List.mem_singleton] at hx
  obtain (hx | hx) | rfl := hx
  · have hnone : ∀ x ∈ loneRows, x.1 ≠ lone.point p := by cases p <;> decide
    exact hnone x hx
  · obtain ⟨i, q, hq, rfl⟩ := mem_attachedRows_iff.mp hx
    exact fun heq => hp (point_injective heq ▸ List.mem_of_getElem? hq)
  · exact (point_ne_start p).symm

/-- The symbols that are read by words. -/
def IsLexical (X : SymbolId) : Prop := X.index = 1 ∨ 9 ≤ X.index ∧ X.index < 13 ∨ 19 ≤ X.index

instance (X : SymbolId) : Decidable (IsLexical X) := inferInstanceAs (Decidable (_ ∨ _))

/-- The restrictions, their conjunctions and what is attached to them. -/
def Restricting (X : SymbolId) : Prop :=
  4 ≤ X.index ∧ X.index < 8 ∨ 13 ≤ X.index ∧ X.index < 19

instance (X : SymbolId) : Decidable (Restricting X) := inferInstanceAs (Decidable (_ ∨ _))

/-- What is read without a restriction. -/
def Unrestricting (X : SymbolId) : Prop := X.index < 4 ∨ X.index = 8 ∨ 19 ≤ X.index

instance (X : SymbolId) : Decidable (Unrestricting X) := inferInstanceAs (Decidable (_ ∨ _))

/-- What each symbol of the category is. -/
inductive Role : SymbolId → Prop where
  | start : Role Draft.start
  | term : Role lone.term
  | point (p : AttachmentPoint) : Role (lone.point p)
  | head : Role lone.head
  | rhs : Role lone.rhs
  | plural : Role lone.plural
  | relative : Role loneRelative
  | separator (s : Separator) : Role (separatorOf loneConnectives s)
  | family (p : Part) : Role (loneFamily.symbol p)
  | word (i : Nat) : Role ⟨19 + i⟩

theorem role : ∀ X : SymbolId, Role X
  | ⟨0⟩ => .start
  | ⟨1⟩ => .term
  | ⟨2⟩ => .point .adjective
  | ⟨3⟩ => .head
  | ⟨4⟩ => .point .subjFilter
  | ⟨5⟩ => .point .objFilter
  | ⟨6⟩ => .point .passive
  | ⟨7⟩ => .rhs
  | ⟨8⟩ => .plural
  | ⟨9⟩ => .relative
  | ⟨10⟩ => .separator .and
  | ⟨11⟩ => .separator .or
  | ⟨12⟩ => .separator .comma
  | ⟨13⟩ => .family .root
  | ⟨14⟩ => .family .andGroup
  | ⟨15⟩ => .family .andTail
  | ⟨16⟩ => .family .andOption
  | ⟨17⟩ => .family .orGroup
  | ⟨18⟩ => .family .orTail
  | ⟨i + 19⟩ => Nat.add_comm 19 i ▸ .word i

/-- The name of a connective. -/
def separatorName : Separator → String
  | .and => "[and]"
  | .or => "[or]"
  | .comma => "[comma]"

/-- The names of what nothing reads. -/
def leftOver (isPerson : Bool) (points : List AttachmentPoint) : List String :=
  if Named points then []
  else if .passive ∈ points then [Name.bracketed (relativePart isPerson)]
  else ["[and]", "[comma]", "[or]", Name.bracketed (relativePart isPerson), intersectName, unionName]

/-- The draft has the rules of the category, those of words and no others. -/
structure Completed (isPerson : Bool) (points : List AttachmentPoint) (d : Draft) : Prop where
  live : ∀ X, X ∈ d.liveSymbols ↔ X.index < 19 + points.length
  rows : ∀ X r, (X, r) ∈ rowsWith points → r ∈ d.rules X
  only : ∀ X, ∀ r ∈ d.rules X, (X, r) ∈ rowsWith points ∨
    IsLexical X ∧ r.expansion.parts = [] ∧ r.semantic = none
  lexical : ∀ X ∈ d.liveSymbols, IsLexical X → ∃ r ∈ d.rules X, r.expansion.parts = []
  relativeName : d.symbolName loneRelative = Name.bracketed (relativePart isPerson)
  separatorName : ∀ s, d.symbolName (separatorOf loneConnectives s) = separatorName s
  vocabulary : ∃ plural, d.vocabulary = loneVocabulary plural
  prunedSemantics : d.prunedSemantics = []
  entityCategories : d.entityCategories = []

namespace Completed

variable {isPerson : Bool} {points : List AttachmentPoint} {d : Draft}
variable (h : Completed isPerson points d)
include h

theorem head_row {x : SymbolId × Rule} (hx : x ∈ headRows) : x.2 ∈ d.rules x.1 :=
  h.rows _ _ (by simp [rowsWith, loneRows, hx])

theorem rhs_row {x : SymbolId × Rule} (hx : x ∈ rhsRows) : x.2 ∈ d.rules x.1 :=
  h.rows _ _ (by simp [rowsWith, loneRows, hx])

theorem family_row {p : Part} {r : Rule} (hr : r ∈ loneFamily.rules p) :
    r ∈ d.rules (loneFamily.symbol p) := by
  have hp : p ∈ Part.all := by cases p <;> decide
  have hmem : (loneFamily.symbol p, r) ∈ loneFamily.additions :=
    List.mem_flatMap.mpr ⟨p, hp, List.mem_map_of_mem hr⟩
  exact h.rows _ _ (by simp [rowsWith, loneRows, hmem])

theorem plural_row {x : SymbolId × Rule} (hx : x ∈ pluralRows) : x.2 ∈ d.rules x.1 :=
  h.rows _ _ (by simp [rowsWith, loneRows, hx])

theorem start_row : startRow.2 ∈ d.rules startRow.1 := h.rows _ _ (by simp [rowsWith])

theorem point_row {i : Nat} {p : AttachmentPoint} (hp : points[i]? = some p) :
    (Proposal.unary ⟨19 + i⟩).unaryRule ⟨19 + i⟩ ∈ d.rules (lone.point p) :=
  h.rows _ _ (by simp [rowsWith, mem_attachedRows_iff.mpr ⟨i, p, hp, rfl⟩])

/-! ### What expands -/

theorem expands_lexical {X : SymbolId} (hX : IsLexical X) (hlt : X.index < 19 + points.length) :
    d.Expands X := by
  obtain ⟨r, hr, hparts⟩ := h.lexical X ((h.live X).mpr hlt) hX
  refine Productions.expands_iff.mpr ⟨r, hr, fun Y hY => ?_⟩
  have hmem : Y ∈ r.expansion.parts := hY
  rw [hparts] at hmem
  exact absurd hmem List.not_mem_nil

theorem expands_term : d.Expands lone.term :=
  h.expands_lexical (by decide) (show 1 < _ by omega)

theorem expands_relative : d.Expands loneRelative :=
  h.expands_lexical (by decide) (show 9 < _ by omega)

theorem expands_separator (s : Separator) : d.Expands (separatorOf loneConnectives s) := by
  have hlexical : IsLexical (separatorOf loneConnectives s) ∧
      (separatorOf loneConnectives s).index < 13 := by
    cases s <;> decide
  exact h.expands_lexical hlexical.1 (by omega)

theorem expands_word {i : Nat} {p : AttachmentPoint} (hp : points[i]? = some p) :
    d.Expands ⟨19 + i⟩ := by
  have hi : i < points.length := (List.getElem?_eq_some_iff.mp hp).1
  exact h.expands_lexical (.inr (.inr (Nat.le_add_right 19 i))) (Nat.add_lt_add_left hi 19)

theorem expands_point {p : AttachmentPoint} (hp : p ∈ points) : d.Expands (lone.point p) := by
  obtain ⟨i, hi⟩ := List.mem_iff_getElem?.mp hp
  exact Draft.expands_one (h.point_row hi) rfl (h.expands_word hi)

theorem expands_head : d.Expands lone.head :=
  Draft.expands_one (h.head_row (.head _)) rfl h.expands_term

theorem expands_plural : d.Expands lone.plural :=
  Draft.expands_one (h.plural_row (.head _)) rfl h.expands_head

theorem expands_start : d.Expands Draft.start :=
  Draft.expands_one h.start_row rfl h.expands_plural

theorem expands_rhs (hr : Restricted points) : d.Expands lone.rhs := by
  obtain (hsubj | hobj) | hpassive := hr
  · exact Draft.expands_two (h.rhs_row (.head _)) rfl h.expands_relative (h.expands_point hsubj)
  · exact Draft.expands_one (h.rhs_row (.tail _ (.head _))) rfl (h.expands_point hobj)
  · exact Draft.expands_one (h.rhs_row (.tail _ (.tail _ (.tail _ (.head _))))) rfl
      (h.expands_point hpassive)

theorem fed (hr : Restricted points) : loneFamily.Fed d :=
  ⟨fun _ _ => h.family_row, h.expands_rhs hr, h.expands_separator⟩

/-- The rules of a symbol, by where they come from. -/
theorem rule_cases {X : SymbolId} {r : Rule} (hr : r ∈ d.rules X) :
    (X, r) ∈ loneRows ∨
    (∃ i p, points[i]? = some p ∧ X = lone.point p ∧ r.expansion.parts = [⟨19 + i⟩] ∧
      r.semantic = none) ∨
    (X, r) = startRow ∨ IsLexical X ∧ r.expansion.parts = [] ∧ r.semantic = none := by
  rcases h.only X r hr with hrow | hlexical
  · simp only [rowsWith, List.mem_append, List.mem_singleton] at hrow
    obtain (hrow | hrow) | hrow := hrow
    · exact .inl hrow
    · obtain ⟨i, p, hp, heq⟩ := mem_attachedRows_iff.mp hrow
      obtain ⟨rfl, rfl⟩ := Prod.mk.inj heq
      exact .inr (.inl ⟨i, p, hp, rfl, rfl, rfl⟩)
    · exact .inr (.inr (.inl hrow))
  · exact .inr (.inr (.inr hlexical))

/-- A point that is given nothing does not expand. -/
theorem not_expands_point {p : AttachmentPoint} (hp : p ∉ points) : ¬ d.Expands (lone.point p) := by
  refine Draft.not_expands_of_stuck (· = lone.point p) (fun X r hX hr => ?_) rfl
  subst hX
  rcases h.only _ r hr with hrow | ⟨hlexical, -⟩
  · exact absurd rfl (ne_point_of_mem_rows hp _ hrow)
  · have hnone : ¬ IsLexical (lone.point p) := by cases p <;> decide
    exact absurd hlexical hnone

/-- Without a restriction nothing that needs one expands. -/
theorem not_expands_of_unrestricted (hr : ¬ Restricted points) {X : SymbolId} (hX : Restricting X) :
    ¬ d.Expands X := by
  refine Draft.not_expands_of_stuck Restricting (fun X r hX hrule => ?_) hX
  rcases h.rule_cases hrule with hrow | ⟨i, p, hp, rfl, -⟩ | hrow | ⟨hlexical, -⟩
  · have hparts : ∀ x ∈ loneRows, Restricting x.1 → ∃ Y ∈ x.2.expansion.parts, Restricting Y := by
      decide
    exact hparts _ hrow hX
  · have hmem := List.mem_of_getElem? hp
    cases p with
    | adjective => exact absurd hX (by decide)
    | subjFilter => exact absurd (.inl (.inl hmem)) hr
    | objFilter => exact absurd (.inl (.inr hmem)) hr
    | passive => exact absurd (.inr hmem) hr
  · have hstart : ¬ Restricting startRow.1 := by decide
    exact absurd (congrArg Prod.fst hrow ▸ hX) hstart
  · unfold Restricting at hX
    unfold IsLexical at hlexical
    omega

/-! ### What occurs -/

theorem occurs_start : d.Occurs Draft.start := Productions.occurs_root h.expands_start

theorem occurs_plural : d.Occurs lone.plural :=
  (Draft.Occurs.applies_one h.occurs_start h.start_row rfl h.expands_plural).occurs (.head _)

/-- Whatever is read, the plural may stand for all. -/
theorem applies_plural {x : SymbolId × Rule} (hx : pluralRows.head? = some x) : d.Applies x.1 x.2 := by
  cases hx
  exact Draft.Occurs.applies_one h.occurs_plural (h.plural_row (.head _)) rfl h.expands_head

theorem occurs_head : d.Occurs lone.head := (h.applies_plural rfl).occurs (.head _)

theorem occurs_term : d.Occurs lone.term :=
  (Draft.Occurs.applies_one h.occurs_head (h.head_row (.head _)) rfl h.expands_term).occurs (.head _)

theorem occurs_rhsPlus (hr : Restricted points) : d.Occurs (loneFamily.symbol .root) :=
  (Draft.Occurs.applies_two h.occurs_plural (h.plural_row (.tail _ (.head _))) rfl h.expands_head
    ((h.fed hr).expands .root)).occurs (.tail _ (.head _))

theorem occurs_rhs (hr : Restricted points) : d.Occurs lone.rhs :=
  (h.fed hr).occurs_operand (h.occurs_rhsPlus hr)

theorem occurs_point {p : AttachmentPoint} (hp : p ∈ points) : d.Occurs (lone.point p) := by
  have hpoint := h.expands_point hp
  cases p with
  | adjective =>
    exact (Draft.Occurs.applies_two h.occurs_head (h.head_row (.tail _ (.head _))) rfl hpoint
      h.expands_term).occurs (.head _)
  | subjFilter =>
    exact (Draft.Occurs.applies_two (h.occurs_rhs (.inl (.inl hp))) (h.rhs_row (.head _)) rfl
      h.expands_relative hpoint).occurs (.tail _ (.head _))
  | objFilter =>
    exact (Draft.Occurs.applies_one (h.occurs_rhs (.inl (.inr hp))) (h.rhs_row (.tail _ (.head _)))
      rfl hpoint).occurs (.head _)
  | passive =>
    exact (Draft.Occurs.applies_one (h.occurs_rhs (.inr hp))
      (h.rhs_row (.tail _ (.tail _ (.tail _ (.head _))))) rfl hpoint).occurs (.head _)

theorem occurs_word {i : Nat} {p : AttachmentPoint} (hp : points[i]? = some p) :
    d.Occurs ⟨19 + i⟩ :=
  (Draft.Occurs.applies_one (h.occurs_point (List.mem_of_getElem? hp)) (h.point_row hp) rfl
    (h.expands_word hp)).occurs (.head _)

/-- The relative pronoun is read exactly if there is something to read after it. -/
theorem occurs_relative_iff : d.Occurs loneRelative ↔ Named points := by
  constructor
  · intro hoccurs
    by_contra hn
    obtain ⟨hsubj, hobj⟩ := not_or.mp hn
    refine Productions.Occurs.induction (P := (· ≠ loneRelative)) (by decide)
      (fun X r _ hr hparts Y hY heq => ?_) hoccurs rfl
    subst heq
    have hmem : loneRelative ∈ r.expansion.parts := hY
    rcases h.rule_cases hr with hrow | ⟨i, p, -, -, heq, -⟩ | hrow | ⟨-, heq, -⟩
    · have hrows : ∀ x ∈ loneRows, loneRelative ∈ x.2.expansion.parts →
          lone.subjFilter ∈ x.2.expansion.parts ∨ lone.objFilter ∈ x.2.expansion.parts := by decide
      rcases hrows _ hrow hmem with hpart | hpart
      · exact h.not_expands_point hsubj (hparts _ hpart)
      · exact h.not_expands_point hobj (hparts _ hpart)
    · rw [heq, List.mem_singleton] at hmem
      have hindex : 9 = 19 + i := congrArg SymbolId.index hmem
      omega
    · have hstart : loneRelative ∉ startRow.2.expansion.parts := by decide
      exact hstart (congrArg Prod.snd hrow ▸ hmem)
    · rw [heq] at hmem
      exact List.not_mem_nil hmem
  · rintro (hsubj | hobj)
    · exact (Draft.Occurs.applies_two (h.occurs_rhs (.inl (.inl hsubj))) (h.rhs_row (.head _)) rfl
        h.expands_relative (h.expands_point hsubj)).occurs (.head _)
    · exact (Draft.Occurs.applies_two (h.occurs_rhs (.inl (.inr hobj)))
        (h.rhs_row (.tail _ (.tail _ (.head _)))) rfl h.expands_relative
        (h.expands_point hobj)).occurs (.head _)

/-- Without a restriction nothing is read that needs one. -/
theorem unrestricting_of_occurs (hr : ¬ Restricted points) {X : SymbolId} (hX : d.Occurs X) :
    Unrestricting X := by
  refine Productions.Occurs.induction (P := Unrestricting) (by decide)
    (fun X r hX hrule hparts Y hY => ?_) hX
  have hmem : Y ∈ r.expansion.parts := hY
  rcases h.rule_cases hrule with hrow | ⟨i, p, -, -, heq, -⟩ | hrow | ⟨-, heq, -⟩
  · have hrows : ∀ x ∈ loneRows, Unrestricting x.1 → (∀ Y ∈ x.2.expansion.parts, Unrestricting Y) ∨
        ∃ Y ∈ x.2.expansion.parts, Restricting Y := by decide
    rcases hrows _ hrow hX with hall | ⟨Z, hZ, hrestricting⟩
    · exact hall Y hmem
    · exact absurd (hparts Z hZ) (h.not_expands_of_unrestricted hr hrestricting)
  · rw [heq, List.mem_singleton] at hmem
    exact .inr (.inr (hmem ▸ Nat.le_add_right 19 i))
  · have hstart : ∀ Y ∈ startRow.2.expansion.parts, Unrestricting Y := by decide
    exact hstart Y (congrArg Prod.snd hrow ▸ hmem)
  · rw [heq] at hmem
    exact absurd hmem List.not_mem_nil

/-! ### What is left over -/

theorem unused_symbol_iff (X : SymbolId) : X ∈ d.liveSymbols ∧ d.Expands X ∧ ¬ d.Occurs X ↔
    X = loneRelative ∧ ¬ Named points ∨
      (∃ s, X = separatorOf loneConnectives s) ∧ ¬ Restricted points := by
  constructor
  · rintro ⟨hlive, hexpands, hunused⟩
    cases role X with
    | start => exact absurd h.occurs_start hunused
    | term => exact absurd h.occurs_term hunused
    | point p =>
      by_cases hp : p ∈ points
      · exact absurd (h.occurs_point hp) hunused
      · exact absurd hexpands (h.not_expands_point hp)
    | head => exact absurd h.occurs_head hunused
    | rhs =>
      by_cases hr : Restricted points
      · exact absurd (h.occurs_rhs hr) hunused
      · exact absurd hexpands (h.not_expands_of_unrestricted hr (by decide))
    | plural => exact absurd h.occurs_plural hunused
    | relative => exact .inl ⟨rfl, h.occurs_relative_iff.not.mp hunused⟩
    | separator s =>
      refine .inr ⟨⟨s, rfl⟩, fun hr => hunused ?_⟩
      exact (h.fed hr).occurs_separator (h.occurs_rhsPlus hr) s
    | family p =>
      by_cases hr : Restricted points
      · exact absurd ((h.fed hr).occurs (h.occurs_rhsPlus hr) p) hunused
      · exact absurd hexpands (h.not_expands_of_unrestricted hr (by cases p <;> decide))
    | word i =>
      have hi : i < points.length := Nat.lt_of_add_lt_add_left ((h.live _).mp hlive)
      exact absurd (h.occurs_word (List.getElem?_eq_getElem hi)) hunused
  · rintro (⟨rfl, hn⟩ | ⟨⟨s, rfl⟩, hr⟩)
    · exact ⟨(h.live _).mpr (show 9 < _ by omega), h.expands_relative, h.occurs_relative_iff.not.mpr hn⟩
    · have hbounds : (separatorOf loneConnectives s).index < 13 ∧
          ¬ Unrestricting (separatorOf loneConnectives s) := by
        cases s <;> decide
      exact ⟨(h.live _).mpr (by omega), h.expands_separator s,
        fun hoccurs => hbounds.2 (h.unrestricting_of_occurs hr hoccurs)⟩

theorem unused_semantic_iff (id : SemanticId) : id ∈ d.liveSemantics ∧ ¬ d.trimmed.Attaches id ↔
    (id = loneConnectives.intersect ∨ id = loneConnectives.union) ∧ ¬ Restricted points := by
  have hattached : ∀ {X r a}, d.Applies X r → r.semantic = some a → id ∈ a.ids →
      d.trimmed.Attaches id := fun {X r a} happlies ha hid =>
    ⟨X, r, (Draft.mem_rules_trimmed_iff h.expands_start).mpr happlies, a, ha, hid⟩
  have hlive : id ∈ d.liveSemantics ↔ id.index < 3 := by
    obtain ⟨plural, hvocabulary⟩ := h.vocabulary
    rw [Draft.mem_liveSemantics_iff, hvocabulary, h.prunedSemantics]
    simp [Vocabulary.size, loneVocabulary]
  rw [hlive]
  constructor
  · rintro ⟨hlt, hunused⟩
    obtain ⟨i⟩ := id
    change i < 3 at hlt
    obtain rfl | rfl | rfl : i = 0 ∨ i = 1 ∨ i = 2 := by omega
    · exact absurd (hattached (h.applies_plural rfl) rfl (.head _)) hunused
    · refine ⟨.inl rfl, fun hr => hunused ?_⟩
      have happlies := (h.fed hr).applies (h.occurs_rhsPlus hr) (p := .andGroup) (.head _)
      exact hattached happlies rfl (.head _)
    · refine ⟨.inr rfl, fun hr => hunused ?_⟩
      have happlies := (h.fed hr).applies (h.occurs_rhsPlus hr) (p := .orGroup) (.head _)
      exact hattached happlies rfl (.head _)
  · rintro ⟨hid, hr⟩
    refine ⟨by rcases hid with rfl | rfl <;> decide, ?_⟩
    rintro ⟨X, r, hrule, a, ha, hmem⟩
    have happlies := (Draft.mem_rules_trimmed_iff h.expands_start).mp hrule
    have hX := h.unrestricting_of_occurs hr ⟨r, happlies⟩
    rcases h.rule_cases happlies.expands.1 with hrow | ⟨_, _, -, -, -, hnone⟩ | hrow | ⟨-, -, hnone⟩
    · have hrows : ∀ x ∈ loneRows, Unrestricting x.1 →
          ∀ id ∈ (x.2.semantic.map Attachment.ids).getD [], id = lone.all := by decide
      have hall := hrows _ hrow hX id (by simpa [ha] using hmem)
      rcases hid with rfl | rfl
      · exact absurd hall (by decide)
      · exact absurd hall (by decide)
    · simp [hnone] at ha
    · obtain rfl : r = startRow.2 := congrArg Prod.snd hrow
      cases ha
    · simp [hnone] at ha

/-- What is registered for a category but not used, where only some of its points are given words. -/
theorem unusedOf_eq : d.unusedOf = leftOver isPerson points := by
  have hascending : (leftOver isPerson points).Pairwise (· < ·) := by
    unfold leftOver
    split
    · exact .nil
    · split
      · exact List.pairwise_singleton _ _
      · cases isPerson <;> decide
  refine List.Pairwise.eq_of_mem_iff (Keyed.pairwise_distinct id _) hascending fun name => ?_
  have hsymbols : (∃ id ∈ d.liveSymbols, d.Expands id ∧ ¬ d.Occurs id ∧ d.symbolName id = name) ↔
      (¬ Named points ∧ name = Name.bracketed (relativePart isPerson)) ∨
        ¬ Restricted points ∧ ∃ s, name = Category.separatorName s := by
    constructor
    · rintro ⟨X, hlive, hexpands, hunused, rfl⟩
      rcases (h.unused_symbol_iff X).mp ⟨hlive, hexpands, hunused⟩ with ⟨rfl, hn⟩ | ⟨⟨s, rfl⟩, hr⟩
      · exact .inl ⟨hn, h.relativeName⟩
      · exact .inr ⟨hr, s, h.separatorName s⟩
    · rintro (⟨hn, rfl⟩ | ⟨hr, s, rfl⟩)
      · obtain ⟨hlive, hexpands, hunused⟩ := (h.unused_symbol_iff _).mpr (.inl ⟨rfl, hn⟩)
        exact ⟨_, hlive, hexpands, hunused, h.relativeName⟩
      · obtain ⟨hlive, hexpands, hunused⟩ := (h.unused_symbol_iff _).mpr (.inr ⟨⟨s, rfl⟩, hr⟩)
        exact ⟨_, hlive, hexpands, hunused, h.separatorName s⟩
  have hsemantics : (∃ id ∈ d.liveSemantics, ¬ d.trimmed.Attaches id ∧ d.vocabulary.name id = name) ↔
      ¬ Restricted points ∧ (name = intersectName ∨ name = unionName) := by
    obtain ⟨plural, hvocabulary⟩ := h.vocabulary
    have hnames : d.vocabulary.name loneConnectives.intersect = intersectName ∧
        d.vocabulary.name loneConnectives.union = unionName := by
      rw [hvocabulary]
      exact ⟨rfl, rfl⟩
    constructor
    · rintro ⟨id, hlive, hunused, rfl⟩
      obtain ⟨rfl | rfl, hr⟩ := (h.unused_semantic_iff id).mp ⟨hlive, hunused⟩
      · exact ⟨hr, .inl hnames.1⟩
      · exact ⟨hr, .inr hnames.2⟩
    · rintro ⟨hr, rfl | rfl⟩
      · obtain ⟨hlive, hunused⟩ := (h.unused_semantic_iff _).mpr ⟨.inl rfl, hr⟩
        exact ⟨_, hlive, hunused, hnames.1⟩
      · obtain ⟨hlive, hunused⟩ := (h.unused_semantic_iff _).mpr ⟨.inr rfl, hr⟩
        exact ⟨_, hlive, hunused, hnames.2⟩
  have hcategories : d.liveEntityCategories = [] := by
    rw [Draft.liveEntityCategories, h.entityCategories]
    rfl
  have hseparators : (∃ s, name = Category.separatorName s) ↔
      name = "[and]" ∨ name = "[or]" ∨ name = "[comma]" := by
    constructor
    · rintro ⟨s, rfl⟩
      cases s <;> simp [Category.separatorName]
    · rintro (rfl | rfl | rfl)
      · exact ⟨.and, rfl⟩
      · exact ⟨.or, rfl⟩
      · exact ⟨.comma, rfl⟩
  rw [Draft.mem_unusedOf_iff h.expands_start, hsymbols, hsemantics, hcategories, hseparators, leftOver]
  by_cases hn : Named points
  · simp [hn, Restricted]
  · by_cases hp : AttachmentPoint.passive ∈ points
    · simp [hn, hp, Restricted]
    · simp only [hn, hp, Restricted, or_self, not_false_eq_true, true_and, if_false, List.mem_cons,
        List.not_mem_nil, or_false, false_and, exists_false]
      grind

end Completed

end Category

end QueryGrammar
