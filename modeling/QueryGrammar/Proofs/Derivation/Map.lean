import QueryGrammar.Proofs.Derivation.Tree
/-!
Derivations carried from one grammar to another. Where every rule has a counterpart with the same
tokens and semantics over the images of its parts, what is derived is derived there too.
-/
namespace QueryGrammar

variable {σ σ' ρ ρ' τ α : Type}

theorem exists_mem_of_forall₂ {β γ : Type} {R : β → γ → Prop} {xs : List β} {ys : List γ}
    (h : List.Forall₂ R xs ys) : (∀ x ∈ xs, ∃ y ∈ ys, R x y) ∧ ∀ y ∈ ys, ∃ x ∈ xs, R x y := by
  induction h with
  | nil => simp
  | cons hxy _ ih =>
    obtain ⟨hleft, hright⟩ := ih
    constructor
    · intro x hx
      rcases List.mem_cons.mp hx with rfl | hx
      · exact ⟨_, by simp, hxy⟩
      · obtain ⟨y, hy, h⟩ := hleft x hx
        exact ⟨y, List.mem_cons_of_mem _ hy, h⟩
    · intro y hy
      rcases List.mem_cons.mp hy with rfl | hy
      · exact ⟨_, by simp, hxy⟩
      · obtain ⟨x, hx, h⟩ := hright y hy
        exact ⟨x, List.mem_cons_of_mem _ hx, h⟩

/-- The rule `r'` reads and attaches what `r` does, over the images of its parts. -/
structure Productions.Corresponds (g : Productions σ ρ τ α) (g' : Productions σ' ρ' τ α)
    (image : σ → σ') (r : ρ) (r' : ρ') : Prop where
  parts : g'.parts r' = (g.parts r).map image
  tokens : g'.tokens r' = g.tokens r
  attached : g'.attached r' = g.attached r

namespace Productions

variable {g : Productions σ ρ τ α} {g' : Productions σ' ρ' τ α} {image : σ → σ'}

/-- Symbols that derive one thing each derive one row. -/
theorem forall₂_derives_iff {Ys : List σ} {ps qs : List (List τ × List α)}
    (h : List.Forall₂ (fun Y q => ∀ w s, g.Derives Y w s ↔ w = q.1 ∧ s = q.2) Ys qs) :
    List.Forall₂ (fun Y p => g.Derives Y p.1 p.2) Ys ps ↔ ps = qs := by
  induction h generalizing ps with
  | nil => exact List.forall₂_nil_left_iff
  | cons hY _ ih => simp [List.forall₂_cons_left_iff, hY, ih, ← Prod.ext_iff]

theorem Derives.map
    (h : ∀ X r, g.has X r → ∃ r', g'.has (image X) r' ∧ g.Corresponds g' image r r')
    {X : σ} {w : List τ} {s : List α} (hd : g.Derives X w s) : g'.Derives (image X) w s := by
  refine Derives.induction (P := fun X w s => g'.Derives (image X) w s) ?_ hd
  intro X r ps hr hps
  obtain ⟨r', hr', hc⟩ := h X r hr
  rw [← hc.tokens, ← hc.attached]
  refine Derives.intro hr' ?_
  rw [hc.parts, List.forall₂_map_left_iff]
  exact hps.imp fun _ _ hp => hp.2

/-- Derivations are carried back among symbols that `live` holds of, if it passes to parts. -/
theorem Derives.comap {live : σ → Prop}
    (h : ∀ X r', live X → g'.has (image X) r' →
      ∃ r, g.has X r ∧ (∀ Y ∈ g.parts r, live Y) ∧ g.Corresponds g' image r r')
    {X : σ} {w : List τ} {s : List α} (hX : live X) (hd : g'.Derives (image X) w s) :
    g.Derives X w s := by
  refine Derives.induction (P := fun name w s => ∀ X, image X = name → live X → g.Derives X w s)
    ?_ hd X rfl hX
  rintro _ r' ps hr' hps X rfl hX
  obtain ⟨r, hr, hlive, hc⟩ := h X r' hX hr'
  rw [hc.tokens, hc.attached]
  rw [hc.parts, List.forall₂_map_left_iff] at hps
  refine Derives.intro hr (List.forall₂_iff_get.mpr ?_)
  obtain ⟨hlength, hget⟩ := List.forall₂_iff_get.mp hps
  refine ⟨hlength, fun i h₁ h₂ => ?_⟩
  exact (hget i h₁ h₂).2 _ rfl (hlive _ (List.get_mem _ _))

end Productions

namespace Derivation

variable {g g' : Productions σ ρ τ α} {t : Derivation σ ρ}

/-- A derivation is one of any grammar that has the rules it applies. -/
theorem Valid.of_applications (ht : t.Valid g) (hparts : ∀ r, g'.parts r = g.parts r)
    (h : ∀ X r, (X, r) ∈ t.applications → g'.has X r) : t.Valid g' := by
  induction ht with
  | @node X r ts hr hp hts ih =>
    refine .node (h X r (by simp)) (by rw [hp, hparts]) fun t ht => ih t ht fun Y q hY => ?_
    refine h Y q ?_
    rw [applications_node]
    exact List.mem_cons_of_mem _ (List.mem_flatMap.mpr ⟨t, ht, hY⟩)

theorem Valid.mono (ht : t.Valid g) (hparts : ∀ r, g'.parts r = g.parts r)
    (hhas : ∀ X r, g.has X r → g'.has X r) : t.Valid g' := by
  induction ht with
  | node hr hp _ ih => exact .node (hhas _ _ hr) (by rw [hp, hparts]) ih

theorem Valid.yield_congr (ht : t.Valid g) (h : ∀ r, g'.tokens r = g.tokens r) :
    t.yield g' = t.yield g := by
  induction ht with
  | node hr hp hts ih =>
    rw [yield_node, yield_node, h]
    exact congrArg _ (List.flatMap_congr ih)

theorem Valid.semantics_congr (ht : t.Valid g) (h : ∀ r, g'.attached r = g.attached r) :
    t.semantics g' = t.semantics g := by
  induction ht with
  | node hr hp hts ih =>
    rw [semantics_node, semantics_node, h]
    exact congrArg _ (List.flatMap_congr ih)

end Derivation

/-- Leaving out rules that no derivation of a symbol applies takes none of its derivations. -/
theorem Productions.derives_iff_of_applies {g g' : Productions σ ρ τ α} {root : σ}
    (hhas : ∀ X r, g'.has X r ↔ g.Applies root X r)
    (hsame : ∀ r, g.Corresponds g' id r r) {w : List τ} {s : List α} :
    g'.Derives root w s ↔ g.Derives root w s := by
  have hparts : ∀ r, g'.parts r = g.parts r := fun r => by simpa using (hsame r).parts
  constructor
  · refine @Derives.map _ _ _ _ _ _ _ _ id (fun X r hr => ⟨r, ((hhas X r).mp hr).expands.1, ?_⟩) _ _ _
    exact ⟨by simp [hparts], (hsame r).tokens.symm, (hsame r).attached.symm⟩
  · rintro ⟨t, ht, hroot, rfl, rfl⟩
    refine ⟨t, ?_, hroot, ht.yield_congr fun r => (hsame r).tokens,
      ht.semantics_congr fun r => (hsame r).attached⟩
    exact ht.of_applications hparts fun X r hm => (hhas X r).mpr ⟨t, ht, hroot, hm⟩

end QueryGrammar
