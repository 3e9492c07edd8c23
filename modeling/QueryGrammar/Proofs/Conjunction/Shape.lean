import Mathlib.Data.List.Basic
import QueryGrammar.Semantic.Basic
/-!
The shapes that derivations of a conjunction family have, apart from any symbols. A shape is an
operand, an and-group or an or-group of these, and it determines the words that stand between its
operands. Every row of such words that does not end with a comma belongs to a shape, and to a single
one unless all three words occur in it: what a comma joins is open only between "and" and "or".
-/
namespace QueryGrammar.Conjunction

/-- What stands between two operands. -/
inductive Separator where
  | and
  | or
  | comma
  deriving DecidableEq

/-- How a group goes on: with its own word or with a comma. -/
inductive Link where
  | word
  | comma
  deriving DecidableEq

def Link.separator (own : Separator) : Link → Separator
  | word => own
  | comma => .comma

/-- A derivation from the root of a family. An and-group is given by its links but for the last,
which is "and"; an or-group by its members, each of them an operand or an and-group, with the links
after the first but for the last, which is "or". -/
inductive Shape where
  | operand
  | andGroup (links : List Link)
  | orGroup (first : Option (List Link)) (links : List (Link × Option (List Link)))
      (last : Option (List Link))

def andSeparators (links : List Link) : List Separator :=
  links.map (Link.separator .and) ++ [.and]

/-- The separators in a member of an or-group. -/
def memberSeparators : Option (List Link) → List Separator
  | none => []
  | some links => andSeparators links

/-- The separators of an or-group after its first member. -/
def orSeparators : List (Link × Option (List Link)) → Option (List Link) → List Separator
  | [], last => .or :: memberSeparators last
  | (link, member) :: links, last =>
    link.separator .or :: (memberSeparators member ++ orSeparators links last)

def Shape.separators : Shape → List Separator
  | operand => []
  | andGroup links => andSeparators links
  | orGroup first links last => memberSeparators first ++ orSeparators links last

variable {seps rest : List Separator} {link : Link} {links : List Link} {member : Option (List Link)}
  {last : Option (List Link)} {members : List (Link × Option (List Link))}

/-! ### Which rows have a shape -/

theorem separator_injective {own : Separator} (h : own ≠ .comma) :
    Function.Injective (Link.separator own) := by
  intro a b hab
  cases a <;> cases b <;> simp_all [Link.separator, eq_comm]

theorem or_notMem_andSeparators : Separator.or ∉ andSeparators links := by
  intro h
  rcases List.mem_append.mp h with h | h
  · obtain ⟨link, -, heq⟩ := List.mem_map.mp h
    cases link <;> simp [Link.separator] at heq
  · simp at h

theorem or_notMem_memberSeparators : Separator.or ∉ memberSeparators member := by
  cases member with
  | none => simp [memberSeparators]
  | some links => exact or_notMem_andSeparators

theorem or_mem_orSeparators : Separator.or ∈ orSeparators members member := by
  induction members with
  | nil => exact List.mem_cons_self
  | cons p members ih => exact List.mem_cons_of_mem _ (List.mem_append_right _ ih)

theorem getLast?_memberSeparators : (memberSeparators member).getLast? ≠ some .comma := by
  cases member <;> simp [memberSeparators, andSeparators]

theorem getLast?_orSeparators : (orSeparators members member).getLast? ≠ some .comma := by
  induction members with
  | nil =>
    rw [orSeparators, List.getLast?_cons]
    cases h : (memberSeparators member).getLast? with
    | none => simp
    | some s =>
      have hlast : (memberSeparators member).getLast? ≠ some .comma := getLast?_memberSeparators
      simpa [h] using hlast
  | cons p members ih =>
    have hne : orSeparators members member ≠ [] := List.ne_nil_of_mem or_mem_orSeparators
    rwa [orSeparators, List.getLast?_cons_of_ne_nil (by simp [hne]),
      List.getLast?_append_of_ne_nil _ hne]

theorem Shape.getLast?_separators (shape : Shape) : shape.separators.getLast? ≠ some .comma := by
  cases shape with
  | operand => simp [separators]
  | andGroup links => simp [separators, andSeparators]
  | orGroup first links last =>
    have hne : orSeparators links last ≠ [] := List.ne_nil_of_mem or_mem_orSeparators
    rw [separators, List.getLast?_append_of_ne_nil _ hne]
    exact getLast?_orSeparators

/-- A row without "or" is an operand or an and-group. -/
theorem exists_member (hor : Separator.or ∉ seps) (hlast : seps.getLast? ≠ some .comma) :
    ∃ member, memberSeparators member = seps := by
  induction seps with
  | nil => exact ⟨none, rfl⟩
  | cons s seps ih =>
    have hseps : Separator.or ∉ seps := mt (List.mem_cons_of_mem _) hor
    have hlink : s = .and ∨ s = .comma := by cases s <;> simp_all
    by_cases hnil : seps = []
    · subst hnil
      rcases hlink with rfl | rfl
      · exact ⟨some [], rfl⟩
      · simp at hlast
    · rw [List.getLast?_cons_of_ne_nil hnil] at hlast
      obtain ⟨member, hmember⟩ := ih hseps hlast
      cases member with
      | none => exact absurd hmember.symm hnil
      | some links =>
        rcases hlink with rfl | rfl
        · exact ⟨some (.word :: links), congrArg (List.cons Separator.and) hmember⟩
        · exact ⟨some (.comma :: links), congrArg (List.cons Separator.comma) hmember⟩

/-- A row with "or" is an or-group. Read from its end, "and" extends the first member, the other two
put an operand before it. -/
theorem exists_orGroup (hor : Separator.or ∈ seps) (hlast : seps.getLast? ≠ some .comma) :
    ∃ first members last, memberSeparators first ++ orSeparators members last = seps := by
  induction seps with
  | nil => simp at hor
  | cons s seps ih =>
    by_cases hrest : Separator.or ∈ seps
    · rw [List.getLast?_cons_of_ne_nil (List.ne_nil_of_mem hrest)] at hlast
      obtain ⟨first, members, last, heq⟩ := ih hrest hlast
      cases s with
      | and =>
        refine ⟨some (first.elim [] (.word :: ·)), members, last, ?_⟩
        rw [← heq]
        cases first <;> rfl
      | or => exact ⟨none, (.word, first) :: members, last, congrArg (List.cons Separator.or) heq⟩
      | comma =>
        exact ⟨none, (.comma, first) :: members, last, congrArg (List.cons Separator.comma) heq⟩
    · obtain rfl : s = .or := by simpa [hrest, eq_comm] using hor
      have hend : seps.getLast? ≠ some .comma := by
        intro h
        have hnil : seps ≠ [] := by rintro rfl; simp at h
        exact hlast (by rwa [List.getLast?_cons_of_ne_nil hnil])
      obtain ⟨last, heq⟩ := exists_member hrest hend
      exact ⟨none, [], last, congrArg (List.cons Separator.or) heq⟩

theorem exists_shape_iff : (∃ shape : Shape, shape.separators = seps) ↔ seps.getLast? ≠ some .comma := by
  constructor
  · rintro ⟨shape, rfl⟩
    exact shape.getLast?_separators
  · intro hlast
    by_cases hor : Separator.or ∈ seps
    · obtain ⟨first, members, last, heq⟩ := exists_orGroup hor hlast
      exact ⟨.orGroup first members last, heq⟩
    · obtain ⟨member, heq⟩ := exists_member hor hlast
      cases member with
      | none => exact ⟨.operand, heq⟩
      | some links => exact ⟨.andGroup links, heq⟩

/-! ### Where the shape is unique -/

theorem andSeparators_injective : Function.Injective andSeparators := by
  intro a b hab
  exact List.map_injective_iff.mpr (separator_injective (by decide)) (List.append_cancel_right hab)

theorem memberSeparators_injective : Function.Injective memberSeparators := by
  intro a b hab
  cases a <;> cases b
  · rfl
  · simp [memberSeparators, andSeparators] at hab
  · simp [memberSeparators, andSeparators] at hab
  · exact congrArg some (andSeparators_injective hab)

/-- Not all three separators occur, though "or" may. -/
def Settled (seps : List Separator) : Prop := Separator.comma ∉ seps ∨ Separator.and ∉ seps

theorem Settled.append_right (h : Settled (seps ++ rest)) : Settled rest :=
  h.imp (mt (List.mem_append_right _)) (mt (List.mem_append_right _))

/-- A member has nothing but "and" in it, if it has anything. -/
theorem eq_and_of_settled (h : Settled (memberSeparators member ++ rest)) :
    ∀ s ∈ memberSeparators member, s = .and := by
  intro s hs
  cases member with
  | none => simp [memberSeparators] at hs
  | some links =>
    have hand : Separator.and ∈ memberSeparators (some links) := by
      simp [memberSeparators, andSeparators]
    have hcomma := h.resolve_right fun hnot => hnot (List.mem_append_left _ hand)
    cases s with
    | and => rfl
    | or => exact absurd hs or_notMem_memberSeparators
    | comma => exact absurd (List.mem_append_left _ hs) hcomma

theorem orSeparators_eq_cons : ∃ s rest, orSeparators members member = s :: rest ∧ s ≠ .and := by
  cases members with
  | nil => exact ⟨.or, _, rfl, by decide⟩
  | cons p members =>
    obtain ⟨link, first⟩ := p
    exact ⟨_, _, rfl, by cases link <;> simp [Link.separator]⟩

/-- So a member ends where the first other separator stands. -/
theorem takeWhile_eq_member (h : Settled (memberSeparators member ++ orSeparators members last)) :
    (memberSeparators member ++ orSeparators members last).takeWhile (· = .and) =
      memberSeparators member := by
  obtain ⟨s, rest, heq, hs⟩ : ∃ s rest, orSeparators members last = s :: rest ∧ s ≠ .and :=
    orSeparators_eq_cons
  rw [List.takeWhile_append_of_pos (by simpa using eq_and_of_settled h), heq,
    List.takeWhile_cons_of_neg (by simpa using hs), List.append_nil]

theorem eq_of_append_eq {first first' last last' : Option (List Link)}
    {members members' : List (Link × Option (List Link))}
    (hsettled : Settled (memberSeparators first ++ orSeparators members last))
    (heq : memberSeparators first ++ orSeparators members last =
      memberSeparators first' ++ orSeparators members' last') :
    first = first' ∧ orSeparators members last = orSeparators members' last' := by
  have hfirst : memberSeparators first = memberSeparators first' := by
    rw [← takeWhile_eq_member hsettled, heq, takeWhile_eq_member (heq ▸ hsettled)]
  rw [hfirst] at heq
  exact ⟨memberSeparators_injective hfirst, List.append_cancel_left heq⟩

theorem orSeparators_injective {last last' : Option (List Link)}
    {members members' : List (Link × Option (List Link))}
    (hsettled : Settled (orSeparators members last))
    (heq : orSeparators members last = orSeparators members' last') :
    members = members' ∧ last = last' := by
  induction members generalizing members' with
  | nil =>
    cases members' with
    | nil => exact ⟨rfl, memberSeparators_injective (List.cons.inj heq).2⟩
    | cons p members' =>
      have hor : Separator.or ∈ memberSeparators last := by
        rw [(List.cons.inj heq).2]
        exact List.mem_append_right _ or_mem_orSeparators
      exact absurd hor or_notMem_memberSeparators
  | cons p members ih =>
    obtain ⟨link, member⟩ := p
    cases members' with
    | nil =>
      have hor : Separator.or ∈ memberSeparators last' := by
        rw [← (List.cons.inj heq).2]
        exact List.mem_append_right _ or_mem_orSeparators
      exact absurd hor or_notMem_memberSeparators
    | cons p' members' =>
      obtain ⟨link', member'⟩ := p'
      obtain ⟨hlink, hrest⟩ := List.cons.inj heq
      obtain rfl := separator_injective (by decide) hlink
      have hinner : Settled (memberSeparators member ++ orSeparators members last) :=
        hsettled.imp (mt (List.mem_cons_of_mem _)) (mt (List.mem_cons_of_mem _))
      obtain ⟨rfl, hmembers⟩ := eq_of_append_eq hinner hrest
      obtain ⟨rfl, rfl⟩ := ih hinner.append_right hmembers
      exact ⟨rfl, rfl⟩

/-- A shape without "and", without "or" or without commas is determined by its separators. -/
theorem Shape.eq_of_separators {a b : Shape} (h : a.separators = b.separators)
    (hmissing : Separator.comma ∉ a.separators ∨ Separator.or ∉ a.separators ∨
      Separator.and ∉ a.separators) : a = b := by
  have hor : ∀ {first members last},
      Separator.or ∈ (Shape.orGroup first members last).separators :=
    List.mem_append_right _ or_mem_orSeparators
  have hnil : ∀ {links}, (Shape.andGroup links).separators ≠ [] := by
    simp [separators, andSeparators]
  cases a with
  | operand =>
    cases b with
    | operand => rfl
    | andGroup links => exact absurd h.symm hnil
    | orGroup first members last => exact absurd (h ▸ hor) List.not_mem_nil
  | andGroup links =>
    cases b with
    | operand => exact absurd h hnil
    | andGroup links' => exact congrArg andGroup (andSeparators_injective h)
    | orGroup first members last => exact absurd (h ▸ hor) or_notMem_andSeparators
  | orGroup first members last =>
    cases b with
    | operand => exact absurd (h ▸ hor) List.not_mem_nil
    | andGroup links => exact absurd (h ▸ hor) or_notMem_andSeparators
    | orGroup first' members' last' =>
      have hsettled : Settled (memberSeparators first ++ orSeparators members last) :=
        hmissing.imp_right fun hrest => hrest.resolve_left fun hnot => hnot hor
      obtain ⟨rfl, hmembers⟩ := eq_of_append_eq hsettled h
      obtain ⟨rfl, rfl⟩ := orSeparators_injective hsettled.append_right hmembers
      rfl

/-! ### What a shape means -/

/-- Functions applied to operands. -/
inductive Reading where
  | operand
  | applied (id : SemanticId) (parts : List Reading)

/-- A function of two over many, nested to the right. -/
def nested (id : SemanticId) : List Reading → Reading
  | [] => .applied id []
  | [reading] => reading
  | reading :: rest => .applied id [reading, nested id rest]

section Readings

variable {intersect union : SemanticId}

/-- An operand, or so many more joined by "and". -/
def andReading (intersect : SemanticId) (links : Nat) : Reading :=
  nested intersect (List.replicate (links + 1) .operand)

def memberReading (intersect : SemanticId) (member : Option (List Link)) : Reading :=
  andReading intersect (memberSeparators member).length

/-- The members of an or-group after the first. -/
def orReading (intersect union : SemanticId) :
    List (Link × Option (List Link)) → Option (List Link) → Reading
  | [], last => memberReading intersect last
  | (_, member) :: members, last =>
    .applied union [memberReading intersect member, orReading intersect union members last]

def Shape.reading (intersect union : SemanticId) : Shape → Reading
  | operand => .operand
  | andGroup links => memberReading intersect (some links)
  | orGroup first members last =>
    .applied union [memberReading intersect first, orReading intersect union members last]

theorem andReading_succ (n : Nat) :
    andReading intersect (n + 1) = .applied intersect [.operand, andReading intersect n] := by
  rw [andReading, List.replicate_succ, List.replicate_succ, nested, andReading, List.replicate_succ]
  simp

theorem nested_cons {reading : Reading} {rest : List Reading} (h : rest ≠ []) :
    nested union (reading :: rest) = .applied union [reading, nested union rest] := by
  cases rest with
  | nil => exact absurd rfl h
  | cons _ _ => rfl

/-- The union of what stands between "or", each an intersection of operands. -/
def runsReading (intersect union : SemanticId) (seps : List Separator) : Reading :=
  nested union ((seps.splitOn .or).map fun run => andReading intersect run.length)

theorem runsReading_member : runsReading intersect union (memberSeparators member) =
    memberReading intersect member := by
  rw [runsReading, List.splitOn_eq_singleton or_notMem_memberSeparators]
  rfl

theorem runsReading_append : runsReading intersect union (memberSeparators member ++ .or :: rest) =
    .applied union [memberReading intersect member, runsReading intersect union rest] := by
  rw [runsReading, List.splitOn_append_cons_self_of_not_mem or_notMem_memberSeparators,
    List.map_cons, nested_cons (by simp)]
  rfl

theorem orReading_eq {first last : Option (List Link)}
    (h : Separator.comma ∉ memberSeparators first ++ orSeparators members last) :
    runsReading intersect union (memberSeparators first ++ orSeparators members last) =
      .applied union [memberReading intersect first, orReading intersect union members last] := by
  induction members generalizing first with
  | nil => rw [orSeparators, runsReading_append, runsReading_member, orReading]
  | cons p members ih =>
    obtain ⟨link, member⟩ := p
    have hlink : link = .word := by
      cases link with
      | word => rfl
      | comma => exact absurd (List.mem_append_right _ List.mem_cons_self) h
    subst hlink
    have hrest := mt (List.mem_append_right _ ∘ List.mem_cons_of_mem _) h
    rw [orSeparators, Link.separator, runsReading_append, ih hrest, orReading]

/-- Without commas, a shape is the union of the runs of operands that "and" joins. -/
theorem Shape.reading_eq {shape : Shape} (h : Separator.comma ∉ shape.separators) :
    shape.reading intersect union = runsReading intersect union shape.separators := by
  cases shape with
  | operand =>
    have hnone : runsReading intersect union (memberSeparators none) =
        memberReading intersect none := runsReading_member
    exact hnone.symm
  | andGroup links => exact runsReading_member.symm
  | orGroup first members last => exact (orReading_eq h).symm

end Readings

end QueryGrammar.Conjunction
