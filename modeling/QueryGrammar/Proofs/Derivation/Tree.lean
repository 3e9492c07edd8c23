import Mathlib.Data.List.Forall2
/-!
Derivations of a grammar whose rules may also carry semantics. A derivation is a finite tree that
applies one rule at each node; it reads the tokens at its leaves from left to right and attaches the
semantics of its rules in the order of a walk from the root. Nothing here depends on how symbols and
rules are represented, so the same trees serve a grammar under construction and a finished one.
-/
namespace QueryGrammar

variable {σ ρ τ α : Type}

/-- The rules of a grammar as a derivation uses them: the symbols a rule expands to, the tokens it
reads itself and the semantics attached to it. -/
structure Productions (σ ρ τ α : Type) where
  has : σ → ρ → Prop
  parts : ρ → List σ
  tokens : ρ → List τ
  attached : ρ → List α

inductive Derivation (σ ρ : Type) where
  | node (symbol : σ) (rule : ρ) (children : List (Derivation σ ρ))

namespace Derivation

def symbol : Derivation σ ρ → σ
  | node X _ _ => X

mutual

/-- The rules applied in a derivation with their symbols, the root first. -/
def applications : Derivation σ ρ → List (σ × ρ)
  | node X r ts => (X, r) :: applicationsAll ts

def applicationsAll : List (Derivation σ ρ) → List (σ × ρ)
  | [] => []
  | t :: ts => applications t ++ applicationsAll ts

end

mutual

/-- The tokens that a derivation reads. -/
def yield (g : Productions σ ρ τ α) : Derivation σ ρ → List τ
  | node _ r ts => g.tokens r ++ yieldAll g ts

def yieldAll (g : Productions σ ρ τ α) : List (Derivation σ ρ) → List τ
  | [] => []
  | t :: ts => yield g t ++ yieldAll g ts

end

/-- The semantics attached along a derivation, the root first. -/
def semantics (g : Productions σ ρ τ α) (t : Derivation σ ρ) : List α :=
  t.applications.flatMap fun a => g.attached a.2

mutual

/-- A value of every node from the values of its children. -/
def fold (f : σ → ρ → List α → α) : Derivation σ ρ → α
  | node X r ts => f X r (foldAll f ts)

def foldAll (f : σ → ρ → List α → α) : List (Derivation σ ρ) → List α
  | [] => []
  | t :: ts => fold f t :: foldAll f ts

end

theorem foldAll_eq (f : σ → ρ → List α → α) (ts : List (Derivation σ ρ)) :
    foldAll f ts = ts.map (fold f) := by
  induction ts with
  | nil => rfl
  | cons t ts ih => simp [foldAll, ih]

theorem fold_node (f : σ → ρ → List α → α) (X : σ) (r : ρ) (ts : List (Derivation σ ρ)) :
    (node X r ts).fold f = f X r (ts.map (fold f)) := by
  rw [fold, foldAll_eq]

theorem applicationsAll_eq (ts : List (Derivation σ ρ)) :
    applicationsAll ts = ts.flatMap applications := by
  induction ts with
  | nil => rfl
  | cons t ts ih => simp [applicationsAll, ih]

theorem yieldAll_eq (g : Productions σ ρ τ α) (ts : List (Derivation σ ρ)) :
    yieldAll g ts = ts.flatMap (yield g) := by
  induction ts with
  | nil => rfl
  | cons t ts ih => simp [yieldAll, ih]

@[simp] theorem applications_node (X : σ) (r : ρ) (ts : List (Derivation σ ρ)) :
    (node X r ts).applications = (X, r) :: ts.flatMap applications := by
  rw [applications, applicationsAll_eq]

@[simp] theorem yield_node (g : Productions σ ρ τ α) (X : σ) (r : ρ)
    (ts : List (Derivation σ ρ)) :
    (node X r ts).yield g = g.tokens r ++ ts.flatMap (yield g) := by
  rw [yield, yieldAll_eq]

@[simp] theorem semantics_node (g : Productions σ ρ τ α) (X : σ) (r : ρ)
    (ts : List (Derivation σ ρ)) :
    (node X r ts).semantics g = g.attached r ++ ts.flatMap (semantics g) := by
  simp only [semantics, applications_node, List.flatMap_cons, List.flatMap_assoc]
  rfl

/-- Every node applies a rule of its symbol to children for the parts of that rule. -/
inductive Valid (g : Productions σ ρ τ α) : Derivation σ ρ → Prop where
  | node {X : σ} {r : ρ} {ts : List (Derivation σ ρ)} (rule : g.has X r)
      (parts : ts.map symbol = g.parts r) (children : ∀ t ∈ ts, Valid g t) :
      Valid g (node X r ts)

theorem Valid.child {g : Productions σ ρ τ α} {X : σ} {r : ρ} {ts : List (Derivation σ ρ)}
    (h : Valid g (Derivation.node X r ts)) {t : Derivation σ ρ} (ht : t ∈ ts) : Valid g t := by
  cases h with
  | node _ _ hts => exact hts t ht

/-- `s` is the tree below some node of `t`. -/
inductive Within : Derivation σ ρ → Derivation σ ρ → Prop where
  | refl (t : Derivation σ ρ) : Within t t
  | child {s c : Derivation σ ρ} {X : σ} {r : ρ} {ts : List (Derivation σ ρ)} (mem : c ∈ ts)
      (within : Within s c) : Within s (node X r ts)

theorem Valid.within {g : Productions σ ρ τ α} {s t : Derivation σ ρ} (ht : Valid g t)
    (hs : Within s t) : Valid g s := by
  induction hs with
  | refl => exact ht
  | child hmem _ ih => exact ih (ht.child hmem)

theorem mem_applications_of_within {X : σ} {r : ρ} {ts : List (Derivation σ ρ)}
    {t : Derivation σ ρ} (h : Within (node X r ts) t) : (X, r) ∈ t.applications := by
  generalize hs : node X r ts = s at h
  induction h with
  | refl => simp [← hs]
  | child hc _ ih =>
    rw [applications_node]
    exact List.mem_cons_of_mem _ (List.mem_flatMap.mpr ⟨_, hc, ih⟩)

theorem Valid.exists_within {g : Productions σ ρ τ α} {t : Derivation σ ρ} (ht : Valid g t)
    {X : σ} {r : ρ} (h : (X, r) ∈ t.applications) :
    ∃ ts, Within (Derivation.node X r ts) t ∧ Valid g (Derivation.node X r ts) := by
  induction ht with
  | @node Y q ts hr hp hts ih =>
    rw [applications_node] at h
    rcases List.mem_cons.mp h with heq | h
    · obtain ⟨rfl, rfl⟩ := Prod.mk.inj heq
      exact ⟨ts, .refl _, .node hr hp hts⟩
    · obtain ⟨c, hc, hm⟩ := List.mem_flatMap.mp h
      obtain ⟨us, hw, hv⟩ := ih c hc hm
      exact ⟨us, .child hc hw, hv⟩

/-- A tree may be put in the place of any subtree for the same symbol. -/
theorem Valid.exists_graft {g : Productions σ ρ τ α} {s t new : Derivation σ ρ}
    (hw : Within s t) (ht : Valid g t) (hn : Valid g new) (hs : new.symbol = s.symbol) :
    ∃ u, Valid g u ∧ u.symbol = t.symbol ∧ Within new u := by
  induction hw with
  | refl => exact ⟨new, hn, hs, .refl _⟩
  | @child c X r ts hc _ ih =>
    cases ht with
    | node hr hp hts =>
      obtain ⟨u, hu, hsym, hin⟩ := ih (hts c hc)
      obtain ⟨before, after, rfl⟩ := List.append_of_mem hc
      refine ⟨.node X r (before ++ u :: after), .node hr ?_ ?_, rfl, .child (by simp) hin⟩
      · rw [← hp]
        simp [hsym]
      · intro t ht
        rcases List.mem_append.mp ht with h | h
        · exact hts t (by simp [h])
        · rcases List.mem_cons.mp h with rfl | h
          · exact hu
          · exact hts t (by simp [h])

end Derivation

namespace Productions

variable (g : Productions σ ρ τ α)

/-- A symbol has a finite expansion. -/
def Expands (X : σ) : Prop :=
  ∃ t : Derivation σ ρ, t.Valid g ∧ t.symbol = X

/-- A symbol has a derivation that reads `w` and attaches `s`. -/
def Derives (X : σ) (w : List τ) (s : List α) : Prop :=
  ∃ t : Derivation σ ρ, t.Valid g ∧ t.symbol = X ∧ t.yield g = w ∧ t.semantics g = s

/-- Some derivation of `root` applies the rule `r` at a node for `X`. -/
def Applies (root X : σ) (r : ρ) : Prop :=
  ∃ t : Derivation σ ρ, t.Valid g ∧ t.symbol = root ∧ (X, r) ∈ t.applications

/-- Some derivation of `root` has a node for `X`. -/
def Occurs (root X : σ) : Prop := ∃ r, g.Applies root X r

variable {g}

theorem expands_of_rule {X : σ} {r : ρ} (hr : g.has X r) (hp : ∀ Y ∈ g.parts r, g.Expands Y) :
    ∃ ts, Derivation.Valid g (.node X r ts) := by
  have children : ∀ Ys : List σ, (∀ Y ∈ Ys, g.Expands Y) →
      ∃ ts : List (Derivation σ ρ), ts.map Derivation.symbol = Ys ∧ ∀ t ∈ ts, t.Valid g := by
    intro Ys
    induction Ys with
    | nil => exact fun _ => ⟨[], rfl, by simp⟩
    | cons Y Ys ih =>
      intro h
      obtain ⟨t, ht, rfl⟩ := h Y (by simp)
      obtain ⟨ts, rfl, hts⟩ := ih fun Z hZ => h Z (by simp [hZ])
      exact ⟨t :: ts, rfl, by simpa using ⟨ht, hts⟩⟩
  obtain ⟨ts, hsym, hts⟩ := children _ hp
  exact ⟨ts, .node hr hsym hts⟩

theorem expands_iff {X : σ} :
    g.Expands X ↔ ∃ r, g.has X r ∧ ∀ Y ∈ g.parts r, g.Expands Y := by
  constructor
  · rintro ⟨t, ht, rfl⟩
    cases ht with
    | @node X r ts hr hp hts =>
      refine ⟨r, hr, fun Y hY => ?_⟩
      rw [← hp] at hY
      obtain ⟨t, ht, rfl⟩ := List.mem_map.mp hY
      exact ⟨t, hts t ht, rfl⟩
  · rintro ⟨r, hr, hp⟩
    obtain ⟨ts, h⟩ := expands_of_rule hr hp
    exact ⟨_, h, rfl⟩

/-- What holds of a symbol once it holds of the parts of one of its rules holds of all symbols that
expand. -/
theorem Expands.induction {P : σ → Prop}
    (step : ∀ X r, g.has X r → (∀ Y ∈ g.parts r, P Y) → P X) {X : σ} (h : g.Expands X) : P X := by
  obtain ⟨t, ht, rfl⟩ := h
  induction ht with
  | @node X r ts hr hp _ ih =>
    refine step X r hr fun Y hY => ?_
    rw [← hp] at hY
    obtain ⟨t, ht, rfl⟩ := List.mem_map.mp hY
    exact ih t ht

theorem Derives.intro {X : σ} {r : ρ} {ps : List (List τ × List α)} (hr : g.has X r)
    (hp : List.Forall₂ (fun Y p => g.Derives Y p.1 p.2) (g.parts r) ps) :
    g.Derives X (g.tokens r ++ ps.flatMap (·.1)) (g.attached r ++ ps.flatMap (·.2)) := by
  have children : ∀ {Ys : List σ} {ps : List (List τ × List α)},
      List.Forall₂ (fun Y p => g.Derives Y p.1 p.2) Ys ps →
      ∃ ts : List (Derivation σ ρ), ts.map Derivation.symbol = Ys ∧ (∀ t ∈ ts, t.Valid g) ∧
        ts.flatMap (·.yield g) = ps.flatMap (·.1) ∧
        ts.flatMap (·.semantics g) = ps.flatMap (·.2) := by
    intro Ys ps h
    induction h with
    | nil => exact ⟨[], rfl, by simp, rfl, rfl⟩
    | @cons Y p _ _ hY _ ih =>
      obtain ⟨t, ht, rfl, hy, hs⟩ := hY
      obtain ⟨ts, rfl, hts, hys, hss⟩ := ih
      exact ⟨t :: ts, rfl, by simpa using ⟨ht, hts⟩, by simp [hy, hys], by simp [hs, hss]⟩
  obtain ⟨ts, hsym, hts, hy, hs⟩ := children hp
  exact ⟨.node X r ts, .node hr hsym hts, rfl, by simp [hy], by simp [hs]⟩

/-- Induction over derivations by what they read and attach. -/
theorem Derives.induction {P : σ → List τ → List α → Prop}
    (step : ∀ X r (ps : List (List τ × List α)), g.has X r →
      List.Forall₂ (fun Y p => g.Derives Y p.1 p.2 ∧ P Y p.1 p.2) (g.parts r) ps →
      P X (g.tokens r ++ ps.flatMap (·.1)) (g.attached r ++ ps.flatMap (·.2)))
    {X : σ} {w : List τ} {s : List α} (h : g.Derives X w s) : P X w s := by
  obtain ⟨t, ht, rfl, rfl, rfl⟩ := h
  induction ht with
  | @node X r ts hr hp hts ih =>
    have hstep := step X r (ts.map fun t => (t.yield g, t.semantics g)) hr (by
      rw [← hp, List.forall₂_map_left_iff, List.forall₂_map_right_iff, List.forall₂_same]
      exact fun t ht => ⟨⟨t, hts t ht, rfl, rfl, rfl⟩, ih t ht⟩)
    simpa [List.flatMap_map, Derivation.symbol] using hstep

theorem derives_iff {X : σ} {w : List τ} {s : List α} :
    g.Derives X w s ↔ ∃ (r : ρ) (ps : List (List τ × List α)), g.has X r ∧
      List.Forall₂ (fun Y p => g.Derives Y p.1 p.2) (g.parts r) ps ∧
      w = g.tokens r ++ ps.flatMap (·.1) ∧ s = g.attached r ++ ps.flatMap (·.2) := by
  constructor
  · refine Derives.induction (P := fun X w s => ∃ (r : ρ) (ps : List (List τ × List α)), g.has X r ∧
      List.Forall₂ (fun Y p => g.Derives Y p.1 p.2) (g.parts r) ps ∧
      w = g.tokens r ++ ps.flatMap (·.1) ∧ s = g.attached r ++ ps.flatMap (·.2)) ?_
    intro X r ps hr hps
    exact ⟨r, ps, hr, hps.imp fun _ _ hp => hp.1, rfl, rfl⟩
  · rintro ⟨r, ps, hr, hps, rfl, rfl⟩
    exact .intro hr hps

/-- What a derivation reads is a token of a rule that it applies. -/
theorem Derives.exists_applies {X : σ} {w : List τ} {s : List α} (h : g.Derives X w s) {x : τ}
    (hx : x ∈ w) : ∃ Y r, g.Applies X Y r ∧ x ∈ g.tokens r := by
  obtain ⟨t, ht, hroot, rfl, -⟩ := h
  suffices ∀ {t : Derivation σ ρ}, t.Valid g → x ∈ t.yield g →
      ∃ Y r, (Y, r) ∈ t.applications ∧ x ∈ g.tokens r by
    obtain ⟨Y, r, hmem, htoken⟩ := this ht hx
    exact ⟨Y, r, ⟨t, ht, hroot, hmem⟩, htoken⟩
  intro t ht
  induction ht with
  | @node X r ts _ _ _ ih =>
    intro hx
    rw [Derivation.yield_node, List.mem_append] at hx
    rcases hx with hown | hx
    · exact ⟨X, r, by simp, hown⟩
    · obtain ⟨c, hc, hx⟩ := List.mem_flatMap.mp hx
      obtain ⟨Y, q, hmem, htoken⟩ := ih c hc hx
      refine ⟨Y, q, ?_, htoken⟩
      rw [Derivation.applications_node]
      exact List.mem_cons_of_mem _ (List.mem_flatMap.mpr ⟨c, hc, hmem⟩)

theorem Applies.expands {root X : σ} {r : ρ} (h : g.Applies root X r) :
    g.has X r ∧ ∀ Y ∈ g.parts r, g.Expands Y := by
  obtain ⟨t, ht, -, hm⟩ := h
  obtain ⟨ts, -, hv⟩ := ht.exists_within hm
  cases hv with
  | node hr hp hts =>
    refine ⟨hr, fun Y hY => ?_⟩
    rw [← hp] at hY
    obtain ⟨t, ht, rfl⟩ := List.mem_map.mp hY
    exact ⟨t, hts t ht, rfl⟩

/-- A rule whose parts all expand is applied wherever its symbol occurs. -/
theorem Occurs.applies {root X : σ} {r : ρ} (h : g.Occurs root X) (hr : g.has X r)
    (hp : ∀ Y ∈ g.parts r, g.Expands Y) : g.Applies root X r := by
  obtain ⟨q, t, ht, hroot, hm⟩ := h
  obtain ⟨us, hw, -⟩ := ht.exists_within hm
  obtain ⟨ts, hv⟩ := expands_of_rule hr hp
  obtain ⟨u, hu, hsym, hin⟩ := Derivation.Valid.exists_graft hw ht hv rfl
  exact ⟨u, hu, hsym.trans hroot, Derivation.mem_applications_of_within hin⟩

/-- The parts of an applied rule occur. -/
theorem Applies.occurs_part {root X Y : σ} {r : ρ} (h : g.Applies root X r)
    (hY : Y ∈ g.parts r) : g.Occurs root Y := by
  obtain ⟨t, ht, hroot, hm⟩ := h
  obtain ⟨ts, hw, hv⟩ := ht.exists_within hm
  cases hv with
  | node hr hp hts =>
    rw [← hp] at hY
    obtain ⟨c, hc, rfl⟩ := List.mem_map.mp hY
    have hin : Derivation.Within c t := by
      clear ht hroot hm hr hp hts
      generalize hs : Derivation.node X r ts = s at hw
      induction hw with
      | refl => exact hs ▸ .child hc (.refl c)
      | child hmem _ ih => exact .child hmem ih
    obtain ⟨Y, q, us⟩ := c
    exact ⟨q, t, ht, hroot, Derivation.mem_applications_of_within hin⟩

theorem occurs_root {root : σ} (h : g.Expands root) : g.Occurs root root := by
  obtain ⟨⟨X, r, ts⟩, ht, rfl⟩ := h
  exact ⟨r, _, ht, rfl, by simp [Derivation.symbol]⟩

/-- What holds of the root and passes from a symbol to the parts of its applied rules holds of every
symbol that occurs. -/
theorem Occurs.induction {P : σ → Prop} {root X : σ} (hroot : P root)
    (step : ∀ X r, P X → g.has X r → (∀ Y ∈ g.parts r, g.Expands Y) → ∀ Y ∈ g.parts r, P Y)
    (h : g.Occurs root X) : P X := by
  obtain ⟨q, t, ht, rfl, hm⟩ := h
  suffices ∀ {t : Derivation σ ρ}, t.Valid g → P t.symbol → (X, q) ∈ t.applications → P X from
    this ht hroot hm
  intro t ht
  induction ht with
  | @node Y r ts hr hp hts ih =>
    intro hP hm
    rw [Derivation.applications_node] at hm
    rcases List.mem_cons.mp hm with heq | hm
    · obtain ⟨rfl, rfl⟩ := Prod.mk.inj heq
      exact hP
    · obtain ⟨c, hc, hm⟩ := List.mem_flatMap.mp hm
      have hpart : c.symbol ∈ g.parts r := hp ▸ List.mem_map_of_mem hc
      refine ih c hc (step Y r hP hr (fun Z hZ => ?_) _ hpart) hm
      rw [← hp] at hZ
      obtain ⟨d, hd, rfl⟩ := List.mem_map.mp hZ
      exact ⟨d, hts d hd, rfl⟩

end Productions

end QueryGrammar
