import QueryGrammar.Proofs.Document.Shape
import QueryGrammar.Proofs.Semantic.Canonical
/-!
Written forms can be read back. A name is not empty and holds neither parenthesis nor comma, so it
ends where the first of these stands, and a node ends where a comma or a closing parenthesis follows
that it has not opened. Hence trees of registered semantics are told apart by their written forms.
-/
namespace QueryGrammar.Vocabulary

/-- A vocabulary that was registered from nothing. -/
inductive Grown : Vocabulary → Prop where
  | start : Grown {}
  | register {v w : Vocabulary} {definition : Semantic} {id : SemanticId} (before : Grown v)
      (registered : v.register definition = .ok (id, w)) : Grown w

variable {v : Vocabulary}

namespace Grown

theorem nodup_names (hv : v.Grown) : (v.definitions.map (·.name)).Nodup := by
  induction hv with
  | start => exact List.nodup_nil
  | register _ registered ih =>
    obtain ⟨-, hfresh, -, -, rfl⟩ := register_eq registered
    simpa [List.nodup_append, ih] using hfresh

theorem isPart_of_mem (hv : v.Grown) : ∀ k ∈ v.definitions, Name.isPart k.name = true := by
  induction hv with
  | start => simp
  | register _ registered ih =>
    obtain ⟨hpart, -, -, -, rfl⟩ := register_eq registered
    simpa [or_imp, forall_and, hpart] using ih

theorem isPart_name (hv : v.Grown) {id : SemanticId} (hid : v.Registered id) :
    Name.isPart (v.name id) = true := by
  have hget : v.get? id = some v.definitions[id.index] := List.getElem?_eq_getElem hid
  rw [name_of_get? hget]
  exact hv.isPart_of_mem _ (List.getElem_mem hid)

end Grown

/-! ### Where a name ends -/

section Name

variable (hv : v.Grown)
include hv

theorem takeWhile_name {id : SemanticId} (hid : v.Registered id) {x : List Char}
    (hx : ∀ c ∈ x.head?, Name.isPartChar c = false) :
    ((v.name id).toList ++ x).takeWhile Name.isPartChar = (v.name id).toList := by
  have hpart := hv.isPart_name hid
  simp only [Name.isPart, Bool.and_eq_true, List.all_eq_true] at hpart
  have hnone : x.takeWhile Name.isPartChar = [] := by
    cases x with
    | nil => rfl
    | cons c x => simp [hx c rfl]
  rw [List.takeWhile_append_of_pos hpart.2, hnone, List.append_nil]

theorem name_append_inj {s t : SemanticId} (hs : v.Registered s) (ht : v.Registered t)
    {x y : List Char} (hx : ∀ c ∈ x.head?, Name.isPartChar c = false)
    (hy : ∀ c ∈ y.head?, Name.isPartChar c = false)
    (h : (v.name s).toList ++ x = (v.name t).toList ++ y) : s = t ∧ x = y := by
  have hname : (v.name s).toList = (v.name t).toList := by
    rw [← takeWhile_name hv hs hx, h, takeWhile_name hv ht hy]
  obtain rfl := name_inj hv.nodup_names hs ht (String.toList_inj.mp hname)
  exact ⟨rfl, List.append_cancel_left h⟩

end Name

/-! ### Where a node ends -/

/-- What is written after the name of a node. -/
def ending (v : Vocabulary) (s : SemanticId) (children : Forest) : List Char :=
  if children.isEmpty && (v.get? s).any (·.isArg) then []
  else '(' :: ((v.render children).toList ++ [')'])

theorem toList_renderNode (s : SemanticId) (children : Forest) :
    (v.renderNode (.mk s children)).toList = (v.name s).toList ++ v.ending s children := by
  rw [renderNode, ending]
  split
  · simp
  · simp [render]

/-- Siblings, each after a comma. -/
def further (v : Vocabulary) (siblings : Forest) : List Char :=
  siblings.flatMap fun n => ',' :: (v.renderNode n).toList

theorem toList_render_cons (n : Node) (siblings : Forest) :
    (v.render (n :: siblings)).toList = (v.renderNode n).toList ++ v.further siblings := by
  induction siblings generalizing n with
  | nil => simp [render, renderNodes, further]
  | cons m siblings ih =>
    have hrest := ih m
    rw [render, renderNodes] at hrest ⊢
    rw [renderNodes, String.intercalate_cons_cons]
    simp [hrest, further]

/-- The rest of a text that a node may stand before. -/
def Follows (x : List Char) : Prop := ∀ c ∈ x.head?, c = ',' ∨ c = ')'

/-- The rest of a text that the last of several siblings may stand before. -/
def Closes (x : List Char) : Prop := ∀ c ∈ x.head?, c = ')'

theorem Closes.follows_further {x : List Char} (hx : Closes x) (siblings : Forest) :
    Follows (v.further siblings ++ x) := by
  cases siblings with
  | nil => exact fun c hc => Or.inr (hx c hc)
  | cons n siblings => simp [Follows, further]

/-- No part of a name stands where the name of a node has ended. -/
theorem Follows.isPartChar_ending {x : List Char} (hx : Follows x) (s : SemanticId)
    (children : Forest) : ∀ c ∈ (v.ending s children ++ x).head?, Name.isPartChar c = false := by
  unfold ending
  split
  · intro c hc
    rcases hx c hc with rfl | rfl <;> decide
  · intro c hc
    obtain rfl : '(' = c := by simpa using hc
    decide

/-- After one name either both nodes stand alone or both open their children: nothing opens after a
node. -/
theorem ending_append_cases {s : SemanticId} {children others : Forest} {x y : List Char}
    (hx : Follows x) (hy : Follows y)
    (h : v.ending s children ++ x = v.ending s others ++ y) :
    (children = [] ∧ others = [] ∧ x = y) ∨
      (v.render children).toList ++ ')' :: x = (v.render others).toList ++ ')' :: y := by
  have hopen : ∀ {z z' : List Char}, Follows z → z ≠ '(' :: z' := by
    rintro z z' hz rfl
    simpa using hz '(' rfl
  unfold ending at h
  split at h
  next hleaf =>
    split at h
    next hleaf' =>
      simp only [Bool.and_eq_true, List.isEmpty_iff] at hleaf hleaf'
      exact Or.inl ⟨hleaf.1, hleaf'.1, h⟩
    next => exact absurd h (hopen hx)
  next =>
    split at h
    next => exact absurd h.symm (hopen hy)
    next => exact Or.inr (by simpa using h)

/-- Where siblings are written, a name comes first and no closing parenthesis. -/
theorem eq_nil_of_closes (hv : v.Grown) {ns : Forest}
    (hns : ∀ id ∈ Node.forestIds ns, v.Registered id) {x : List Char}
    (h : Closes ((v.render ns).toList ++ x)) : ns = [] := by
  cases ns with
  | nil => rfl
  | cons n ns =>
    obtain ⟨s, children⟩ := n
    have hpart := hv.isPart_name (hns s (by simp [Node.forestIds, Node.ids]))
    simp only [Name.isPart, Bool.and_eq_true, List.all_eq_true, Bool.not_eq_true',
      List.isEmpty_eq_false_iff] at hpart
    obtain ⟨c, cs, hname⟩ := List.exists_cons_of_ne_nil hpart.1
    have hc : c = ')' := h c (by simp [toList_render_cons, toList_renderNode, hname])
    have hchar := hpart.2 c (by simp [hname])
    rw [hc] at hchar
    exact absurd hchar (by decide)

/-- Siblings are read back once what stands after their commas is. -/
theorem render_append_inj (hv : v.Grown) {ns ms : Forest}
    (hns : ∀ id ∈ Node.forestIds ns, v.Registered id)
    (hms : ∀ id ∈ Node.forestIds ms, v.Registered id) {x y : List Char} (hx : Closes x)
    (hy : Closes y)
    (hfurther : v.further ns ++ x = v.further ms ++ y → ns = ms ∧ x = y)
    (h : (v.render ns).toList ++ x = (v.render ms).toList ++ y) : ns = ms ∧ x = y := by
  have hnil : ∀ z, (v.render []).toList ++ z = z := fun z => by simp [render, renderNodes]
  cases ns with
  | nil =>
    rw [hnil] at h
    obtain rfl := eq_nil_of_closes hv hms (h ▸ hx)
    exact ⟨rfl, h.trans (hnil y)⟩
  | cons n ns =>
    cases ms with
    | nil =>
      rw [hnil] at h
      exact absurd (eq_nil_of_closes hv hns (h ▸ hy)) (List.cons_ne_nil n ns)
    | cons m ms =>
      apply hfurther
      rw [toList_render_cons, toList_render_cons] at h
      simpa [further] using h

mutual

/-- Of two nodes that texts start with, neither is a beginning of the other. -/
theorem renderNode_append_inj (hv : v.Grown) : (a : Node) → (∀ id ∈ a.ids, v.Registered id) →
    ∀ b : Node, (∀ id ∈ b.ids, v.Registered id) → ∀ x y : List Char, Follows x → Follows y →
    (v.renderNode a).toList ++ x = (v.renderNode b).toList ++ y → a = b ∧ x = y
  | .mk s children, ha, .mk t others, hb, x, y, hx, hy, h => by
    rw [toList_renderNode, toList_renderNode, List.append_assoc, List.append_assoc] at h
    obtain ⟨rfl, h⟩ := name_append_inj hv (ha s (by simp [Node.ids])) (hb t (by simp [Node.ids]))
      (hx.isPartChar_ending s children) (hy.isPartChar_ending t others) h
    rcases ending_append_cases hx hy h with ⟨rfl, rfl, hrest⟩ | h
    · exact ⟨rfl, hrest⟩
    · have hchildren : ∀ id ∈ Node.forestIds children, v.Registered id :=
        fun id hid => ha id (by simp [Node.ids, hid])
      have hothers : ∀ id ∈ Node.forestIds others, v.Registered id :=
        fun id hid => hb id (by simp [Node.ids, hid])
      have hcloses : ∀ z, Closes (')' :: z) := fun z => by simp [Closes]
      obtain ⟨rfl, hrest⟩ := render_append_inj hv hchildren hothers (hcloses x) (hcloses y)
        (further_append_inj hv children hchildren others hothers _ _ (hcloses x) (hcloses y)) h
      exact ⟨rfl, (List.cons.inj hrest).2⟩

theorem further_append_inj (hv : v.Grown) : (ns : List Node) →
    (∀ id ∈ Node.forestIds ns, v.Registered id) → ∀ ms : List Node,
    (∀ id ∈ Node.forestIds ms, v.Registered id) → ∀ x y : List Char, Closes x → Closes y →
    v.further ns ++ x = v.further ms ++ y → ns = ms ∧ x = y
  | [], _, [], _, x, y, _, _, h => ⟨rfl, h⟩
  | [], _, m :: ms, _, x, y, hx, _, h => by
    rw [show x = v.further (m :: ms) ++ y from h] at hx
    simp [Closes, further] at hx
  | n :: ns, _, [], _, x, y, _, hy, h => by
    rw [show y = v.further (n :: ns) ++ x from h.symm] at hy
    simp [Closes, further] at hy
  | n :: ns, hns, m :: ms, hms, x, y, hx, hy, h => by
    simp only [Node.forestIds, List.mem_append, or_imp, forall_and] at hns hms
    have hfirst : (v.renderNode n).toList ++ (v.further ns ++ x) =
        (v.renderNode m).toList ++ (v.further ms ++ y) := by simpa [further] using h
    obtain ⟨rfl, hrest⟩ := renderNode_append_inj hv n hns.1 m hms.1 _ _ (hx.follows_further ns)
      (hy.follows_further ms) hfirst
    obtain ⟨rfl, hend⟩ := further_append_inj hv ns hns.2 ms hms.2 x y hx hy hrest
    exact ⟨rfl, hend⟩

end

section Identified

variable (hv : v.Grown)
include hv

theorem renderNode_inj {a b : Node} (ha : ∀ id ∈ a.ids, v.Registered id)
    (hb : ∀ id ∈ b.ids, v.Registered id) (h : v.renderNode a = v.renderNode b) : a = b :=
  (renderNode_append_inj hv a ha b hb [] [] (by simp [Follows]) (by simp [Follows]) (by rw [h])).1

theorem render_inj {a b : Forest} (ha : ∀ id ∈ Node.forestIds a, v.Registered id)
    (hb : ∀ id ∈ Node.forestIds b, v.Registered id) (h : v.render a = v.render b) : a = b := by
  have hcloses : Closes [] := by simp [Closes]
  exact (render_append_inj hv ha hb hcloses hcloses
    (further_append_inj hv a ha b hb [] [] hcloses hcloses) (by rw [h])).1

/-- Sorting siblings by their written forms, each form once, keeps every one of them. -/
theorem mem_distinct_renderNode_iff {nodes : List Node}
    (hnodes : ∀ id ∈ Node.forestIds nodes, v.Registered id) {n : Node} :
    n ∈ Keyed.distinct v.renderNode nodes ↔ n ∈ nodes := by
  refine ⟨Keyed.mem_of_mem_distinct, fun hn => ?_⟩
  have hregistered : ∀ m ∈ nodes, ∀ id ∈ m.ids, v.Registered id :=
    fun m hm id hid => hnodes id (Node.mem_forestIds_iff.mpr ⟨m, hm, hid⟩)
  exact (Keyed.mem_distinct_iff_mem fun m hm h =>
    renderNode_inj hv (hregistered m hm) (hregistered n hn) h).mpr hn

end Identified

/-! ### Composed trees -/

theorem Canonical.registered {forest : Forest} (h : v.Canonical forest) :
    ∀ id ∈ Node.forestIds forest, v.Registered id := by
  induction h with
  | @intro forest _ _ bounded _ ih =>
    intro id hid
    obtain ⟨⟨s, children⟩, hn, hid⟩ := Node.mem_forestIds_iff.mp hid
    rcases List.mem_cons.mp (Node.ids.eq_1 s children ▸ hid) with rfl | hid
    · obtain ⟨d, hd, -⟩ := bounded _ hn
      exact (List.getElem?_eq_some_iff.mp hd).1
    · exact ih _ hn id hid

/-- Trees of registered semantics are told apart by their written forms: all that are composed, in
which arguments have no children, and any others. So no two different siblings are taken for one
when siblings are sorted by their written forms and each form is kept once. -/
theorem Grown.render_identifies (hv : v.Grown) :
    (∀ a b : Forest, (∀ id ∈ Node.forestIds a, v.Registered id) →
      (∀ id ∈ Node.forestIds b, v.Registered id) → v.render a = v.render b → a = b) ∧
    (∀ obtained, Composing v obtained → ∀ forest ∈ obtained,
      ∀ id ∈ Node.forestIds forest, v.Registered id) ∧
    ∀ nodes : List Node, (∀ id ∈ Node.forestIds nodes, v.Registered id) →
      (∀ n, n ∈ Keyed.distinct v.renderNode nodes ↔ n ∈ nodes) ∧
      ∀ forest, v.canonical nodes = .ok forest → ∀ n, n ∈ forest ↔ n ∈ nodes := by
  refine ⟨fun a b ha hb h => render_inj hv ha hb h, fun obtained h forest hforest => ?_,
    fun nodes hnodes => ⟨fun n => mem_distinct_renderNode_iff hv hnodes, fun forest h n => ?_⟩⟩
  · exact (canonical_of_composing h forest hforest).registered
  · obtain ⟨_, -, h⟩ := Outcome.ok_of_bind h
    cases h
    exact mem_distinct_renderNode_iff hv hnodes

theorem grown_followers : followers.Grown := by
  have hme : Grown ⟨[.argument "me"]⟩ :=
    .register .start
      (show Vocabulary.register {} (.argument "me") = .ok (⟨0⟩, ⟨[.argument "me"]⟩) from rfl)
  have hfollowed : Grown ⟨[.argument "me", .function "followed-by" 1 1]⟩ :=
    hme.register (show Vocabulary.register _ (.function "followed-by" 1 1) = .ok (⟨1⟩, _) from rfl)
  exact hfollowed.register (show Vocabulary.register _
    { Semantic.function "not" 1 1 with forbidsMultiple := true } = .ok (⟨2⟩, followers) from rfl)

theorem render_identifies_meNotFollowed : followers.Grown ∧
    (∀ b : Forest, (∀ id ∈ Node.forestIds b, followers.Registered id) →
      followers.render b = "me,not(followed-by(me))" → b = meNotFollowed) ∧
    ∃ forest, followers.canonical (meNotFollowed ++ meNotFollowed) = .ok forest ∧
      ∀ n, n ∈ forest ↔ n ∈ meNotFollowed ++ meNotFollowed := by
  obtain ⟨hrender, -, hcanonical⟩ := grown_followers.render_identifies
  have htext : followers.render meNotFollowed = "me,not(followed-by(me))" := by decide +kernel
  refine ⟨grown_followers, fun b hb h => ?_, meNotFollowed, rfl, ?_⟩
  · exact hrender b meNotFollowed hb (by decide) (h.trans htext.symm)
  · exact (hcanonical _ (by decide)).2 meNotFollowed rfl

end QueryGrammar.Vocabulary
