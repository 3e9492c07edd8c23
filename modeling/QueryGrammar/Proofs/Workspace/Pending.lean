import QueryGrammar.Proofs.Conjunction.Connectives
/-!
What waits for stop words. Each negation defers the stop words of a symbol that it has made itself, so
no symbol ever waits twice. A single step does not keep this: it takes that the symbol is new.
-/
namespace QueryGrammar

open Change

namespace Draft

/-- The symbols that wait for stop words are registered, and none waits twice. -/
structure WaitsOnce (d : Draft) : Prop where
  registered : ∀ p ∈ d.pendingStopWords, p.1.index < d.symbols.length
  once : (d.pendingStopWords.map (·.1)).Nodup

/-- These are what waits, and there are this many symbols at least. -/
def Waiting (pending : List (SymbolId × Option SymbolId)) (n : Nat) (d : Draft) : Prop :=
  d.pendingStopWords = pending ∧ n ≤ d.symbols.length

variable {d e : Draft} {pending : List (SymbolId × Option SymbolId)} {n n' : Nat}

theorem waitsOnce_empty : Draft.empty.WaitsOnce := ⟨by simp [empty], by simp [empty]⟩

theorem waiting_self (d : Draft) : Waiting d.pendingStopWords d.symbols.length d := ⟨rfl, le_rfl⟩

theorem WaitsOnce.mono (h : d.WaitsOnce)
    (he : Waiting d.pendingStopWords d.symbols.length e) : e.WaitsOnce := by
  obtain ⟨hpending, hlength⟩ := he
  constructor
  · intro p hp
    exact (h.registered p (hpending ▸ hp)).trans_le hlength
  · rw [hpending]
    exact h.once

/-- A symbol that is newer than all that wait may wait too. -/
theorem WaitsOnce.defer (h : d.WaitsOnce) {X : SymbolId} (hX : X.index = d.symbols.length)
    (he : Waiting d.pendingStopWords (d.symbols.length + 1) e) (conflicting : Option SymbolId) :
    WaitsOnce { e with pendingStopWords := e.pendingStopWords ++ [(X, conflicting)] } := by
  obtain ⟨hpending, hlength⟩ := he
  have hold : ∀ p ∈ e.pendingStopWords, p.1.index < d.symbols.length := fun p hp =>
    h.registered p (hpending ▸ hp)
  constructor
  · intro p hp
    rcases List.mem_append.mp hp with hp | hp
    · exact (hold p hp).trans_le ((Nat.le_succ _).trans hlength)
    · obtain rfl := List.mem_singleton.mp hp
      exact hX ▸ hlength
  · have hnew : X ∉ e.pendingStopWords.map (·.1) := by
      intro hmem
      obtain ⟨p, hp, rfl⟩ := List.mem_map.mp hmem
      exact absurd (hold p hp) (by omega)
    have honce := hpending ▸ h.once
    rw [List.map_append, List.map_singleton, ← List.concat_eq_append]
    exact honce.concat hnew

theorem Waiting.trans (hd : Waiting pending n d) (he : Waiting d.pendingStopWords n' e)
    (hn : d.symbols.length ≤ n') : Waiting pending n e :=
  ⟨he.1.trans hd.1, hd.2.trans (hn.trans he.2)⟩

theorem waiting_appendRule (h : Waiting pending n d) (id : SymbolId) (r : Rule) :
    Waiting pending n (d.appendRule id r) := by
  refine ⟨?_, h.2.trans (d.keepsNames_appendRule id r).length_le⟩
  unfold appendRule
  split <;> exact h.1

/-- A new symbol has the next number, and what waits is as before. -/
theorem waiting_newSymbolOf {isTermSequence : Bool} {parts : List String} {id : SymbolId}
    (h : d.newSymbolOf isTermSequence parts = .ok (id, e)) :
    id.index = d.symbols.length ∧ Waiting d.pendingStopWords (d.symbols.length + 1) e := by
  obtain ⟨_, -, -, heq⟩ := newSymbolOf_eq h
  cases heq
  exact ⟨rfl, rfl, by simp⟩

theorem waiting_plainStepInvariant (pending : List (SymbolId × Option SymbolId)) (n : Nat) :
    PlainStepInvariant (Waiting pending n) where
  newSymbol hd h := hd.trans (waiting_newSymbolOf h).2 (Nat.le_succ _)
  addRule hd h := by
    obtain ⟨r, -, h⟩ := Outcome.ok_of_bind h
    cases h
    exact waiting_appendRule hd _ r
  addLexical hd h := by
    obtain ⟨f, rules, hnew, -, rfl⟩ := addLexical_eq h
    have hf := hd.trans (waiting_newSymbolOf hnew).2 (Nat.le_succ _)
    exact ⟨hf.1, hf.2.trans (f.keepsNames_modifyRules _ fun _ => rules).length_le⟩
  newPhrase hd h := by
    obtain ⟨f, r, hnew, -, -, rfl⟩ := newPhrase_eq h
    exact waiting_appendRule (hd.trans (waiting_newSymbolOf hnew).2 (Nat.le_succ _)) _ r
  newSemantic hd h := by
    obtain ⟨-, heq⟩ := newSemantic_eq h
    cases heq
    exact hd
  newEntityCategory hd h := by
    obtain ⟨-, heq⟩ := newEntityCategory_eq h
    cases heq
    exact hd

theorem waitsOnce_plainStepInvariant : PlainStepInvariant WaitsOnce where
  newSymbol hd h := hd.mono ((waiting_plainStepInvariant _ _).newSymbol (waiting_self _) h)
  addRule hd h := hd.mono ((waiting_plainStepInvariant _ _).addRule (waiting_self _) h)
  addLexical hd h := hd.mono ((waiting_plainStepInvariant _ _).addLexical (waiting_self _) h)
  newPhrase hd h := hd.mono ((waiting_plainStepInvariant _ _).newPhrase (waiting_self _) h)
  newSemantic hd h := hd.mono ((waiting_plainStepInvariant _ _).newSemantic (waiting_self _) h)
  newEntityCategory hd h :=
    hd.mono ((waiting_plainStepInvariant _ _).newEntityCategory (waiting_self _) h)

end Draft

namespace Workspace

open Registration

/-- The stop words of a negation are deferred for the symbol that it has just made. -/
theorem waitsOnce_negationOf (conflicting : Option SymbolId) (stopPart : String)
    (not symbol : SymbolId) :
    KeepsDraft (fun _ => Draft.WaitsOnce) (negationOf conflicting stopPart not symbol) := by
  intro ws hws
  have hwaiting : ∀ n, ∀ c : Option Connectives,
      PlainStepInvariant (Draft.Waiting ws.draft.pendingStopWords n) :=
    fun n _ => Draft.waiting_plainStepInvariant _ n
  have honce : ∀ c : Option Connectives, PlainStepInvariant Draft.WaitsOnce :=
    fun _ => Draft.waitsOnce_plainStepInvariant
  have hmade : KeepsDraft (fun _ => Draft.WaitsOnce) (call (·.newSymbolOf true [stopPart])) :=
    keeps_call fun c _ _ _ hd h => (honce c).newSymbol hd h
  refine Keeps.bind_at (P := fun ws : Workspace => ws.draft.WaitsOnce) (hmade ws hws)
    fun stopWord t ht hkept => ?_
  obtain ⟨e, he, rfl⟩ := call_eq_ok ht
  -- from here on the symbol is there, and what waits is as before
  obtain ⟨hindex, hnew⟩ := Draft.waiting_newSymbolOf he
  refine Keeps.bind_at (P := fun ws : Workspace => ws.draft.WaitsOnce)
    (keeps_addRule honce _ _ _ hkept) fun _ u hu hkept => ?_
  have hnew := congrArg Prod.snd hu ▸ keeps_addRule (hwaiting _) _ _ _ hnew
  refine Keeps.bind_at (P := fun ws : Workspace => ws.draft.WaitsOnce)
    (keeps_addBinaryRule honce _ _ _ hkept) fun _ v hv hkept => ?_
  have hnew := congrArg Prod.snd hv ▸ keeps_addBinaryRule (hwaiting _) _ _ _ hnew
  exact hws.defer hindex hnew conflicting

end Workspace

theorem waitsOnce_registrationInvariant : RegistrationInvariant fun _ => Draft.WaitsOnce where
  step _ := Draft.waitsOnce_plainStepInvariant
  connect := Workspace.keeps_connectivesOnce Draft.waitsOnce_plainStepInvariant
  negate := Workspace.waitsOnce_negationOf

theorem Registered.waitsOnce {ws : Workspace} (h : Registered ws) : ws.draft.WaitsOnce := by
  induction h with
  | init => exact Draft.waitsOnce_empty
  | call _ hcall ih => exact hcall.keeps waitsOnce_registrationInvariant _ ih

end QueryGrammar
