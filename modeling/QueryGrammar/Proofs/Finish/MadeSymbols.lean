import Mathlib
import QueryGrammar.Finish.Tokenize
import QueryGrammar.Proofs.Draft.Closure
import QueryGrammar.Proofs.Draft.Sound
import QueryGrammar.Proofs.Text.Words
/-!
Symbols made for tokens. Each is named for the tokens it reads, and the names of different tokens
differ, so a symbol that is found under a name reads what one made anew would read.
-/
namespace QueryGrammar

/-- A word that a single token may be. -/
structure IsToken (token : String) : Prop where
  word : Text.IsWord token.toList
  unreserved : token.toList.head? ≠ some '<'

theorem Name.IsTerm.isToken {term token : String} (h : Name.IsTerm term)
    (hw : token ∈ Text.wordsOf term) : IsToken token :=
  ⟨Text.isWord_of_mem_wordsOf hw, h.unreserved token hw⟩

theorem IsToken.ne_emptyName {token : String} (h : IsToken token) : token ≠ emptyName := by
  rintro rfl
  exact h.unreserved (by decide)

/-- The name of the symbol that reads the tokens in a row. -/
def rowName : List String → String
  | [] => emptyName
  | [token] => "<tok:" ++ token ++ ">"
  | tokens => "<seq:" ++ String.intercalate " " tokens ++ ">"

theorem head_rowName (tokens : List String) : (rowName tokens).toList.head? = some '<' := by
  match tokens with
  | [] => decide
  | [token] => simp [rowName]
  | _ :: _ :: _ => simp [rowName]

theorem rowName_injective {ts us : List String} (hts : ∀ t ∈ ts, IsToken t)
    (hus : ∀ u ∈ us, IsToken u) (h : rowName ts = rowName us) : ts = us := by
  have hlist := congrArg String.toList h
  match ts, us with
  | [], [] => rfl
  | [t], [u] =>
    have ht : t.toList = u.toList := by simpa [rowName] using hlist
    rw [String.toList_inj.mp ht]
  | t :: t' :: ts, u :: u' :: us =>
    have hjoin : (String.intercalate " " (t :: t' :: ts)).toList =
        (String.intercalate " " (u :: u' :: us)).toList := by
      simpa only [rowName, String.toList_append, List.append_cancel_left_eq,
        List.append_cancel_right_eq] using hlist
    rw [← Text.wordsOf_intercalate fun x hx => (hts x hx).word, String.toList_inj.mp hjoin,
      Text.wordsOf_intercalate fun x hx => (hus x hx).word]
  | [], [_] => simp [rowName, emptyName] at hlist
  | [], _ :: _ :: _ => simp [rowName, emptyName] at hlist
  | [_], [] => simp [rowName, emptyName] at hlist
  | _ :: _ :: _, [] => simp [rowName, emptyName] at hlist
  | [_], _ :: _ :: _ => simp [rowName] at hlist
  | _ :: _ :: _, [_] => simp [rowName] at hlist

namespace Draft

/-- The symbol `id`, made after the first `n`, reads exactly the tokens. What is read by a symbol
among the first `n` is for `K` to say. -/
inductive Reads (d : Draft) (n : Nat) (K : SymbolId → List String → Prop) :
    SymbolId → List String → Prop where
  | known {id : SymbolId} {tokens : List String} (old : id.index < n) (reads : K id tokens) :
      Reads d n K id tokens
  | nothing {id : SymbolId} (made : n ≤ id.index)
      (rules : d.rules id = [{ expansion := .terminal emptyName .silent }]) : Reads d n K id []
  | token {id : SymbolId} {token : String} (made : n ≤ id.index) (isToken : IsToken token)
      (rules : d.rules id = [{ expansion := .terminal token .verbatim }]) : Reads d n K id [token]
  | row {id first second : SymbolId} {token : String} {rest : List String} (made : n ≤ id.index)
      (several : rest ≠ [])
      (rules : d.rules id = [{ expansion := .sequence first (some second) .verbatim }])
      (head : Reads d n K first [token]) (tail : Reads d n K second rest) :
      Reads d n K id (token :: rest)

/-- References lead from one of the roots to the symbol through symbols made after the first
`n`. -/
inductive Below (d : Draft) (n : Nat) (roots : List SymbolId) : SymbolId → Prop where
  | root {id : SymbolId} (mem : id ∈ roots) : Below d n roots id
  | step {id part : SymbolId} {r : Rule} (path : Below d n roots id) (made : n ≤ id.index)
      (rule : r ∈ d.rules id) (mem : part ∈ r.expansion.parts) : Below d n roots part

/-- Every symbol made after the first `n` that has rules has them still. -/
def KeepsMade (n : Nat) (d e : Draft) : Prop :=
  ∀ id : SymbolId, n ≤ id.index → d.rules id ≠ [] → e.rules id = d.rules id

variable {d e f : Draft} {n : Nat} {K : SymbolId → List String → Prop}

theorem KeepsMade.trans (hde : KeepsMade n d e) (hef : KeepsMade n e f) : KeepsMade n d f := by
  intro id hid hr
  rw [hef id hid (by rw [hde id hid hr]; exact hr), hde id hid hr]

theorem Reads.mono (h : KeepsMade n d e) {id : SymbolId} {tokens : List String}
    (hr : d.Reads n K id tokens) : e.Reads n K id tokens := by
  induction hr with
  | known hold hreads => exact .known hold hreads
  | nothing hid hrules => exact .nothing hid ((h _ hid (by simp [hrules])).trans hrules)
  | token hid ht hrules => exact .token hid ht ((h _ hid (by simp [hrules])).trans hrules)
  | row hid hseveral hrules _ _ ihhead ihtail =>
    exact .row hid hseveral ((h _ hid (by simp [hrules])).trans hrules) ihhead ihtail

theorem Reads.known_or_made {id : SymbolId} {tokens : List String} (h : d.Reads n K id tokens) :
    K id tokens ∨ n ≤ id.index := by
  cases h with
  | known _ hknown => exact .inl hknown
  | nothing hmade => exact .inr hmade
  | token hmade => exact .inr hmade
  | row hmade => exact .inr hmade

theorem Below.mono (h : KeepsMade n d e) {roots : List SymbolId} {id : SymbolId}
    (hb : d.Below n roots id) : e.Below n roots id := by
  induction hb with
  | root hmem => exact .root hmem
  | step _ hid hr hp ih =>
    exact .step ih hid (by rw [h _ hid (List.ne_nil_of_mem hr)]; exact hr) hp

theorem Below.trans {roots others : List SymbolId} {id : SymbolId}
    (hroots : ∀ x ∈ roots, d.Below n others x) (h : d.Below n roots id) :
    d.Below n others id := by
  induction h with
  | root hmem => exact hroots _ hmem
  | step _ hid hr hp ih => exact .step ih hid hr hp

/-! ### Adding symbols -/

/-- `e` is `d` with symbols added below the roots, each reading what it is named for. -/
structure Adds (n : Nat) (K : SymbolId → List String → Prop) (d e : Draft)
    (roots : List SymbolId) : Prop where
  old : ∀ (i : Nat) s, d.symbols[i]? = some s → e.symbols[i]? = some s
  new : ∀ (i : Nat) s, e.symbols[i]? = some s → d.symbols.length ≤ i →
    (∃ tokens, (∀ t ∈ tokens, IsToken t) ∧ s.name = rowName tokens ∧ e.Reads n K ⟨i⟩ tokens) ∧
      e.Below n roots ⟨i⟩
  names : (d.symbols.map (·.name)).Nodup → (e.symbols.map (·.name)).Nodup
  rest : e = { d with symbols := e.symbols }

theorem Adds.refl (n : Nat) (K : SymbolId → List String → Prop) (d : Draft)
    (roots : List SymbolId) : Adds n K d d roots where
  old _ _ h := h
  new i s h hi := absurd (List.getElem?_eq_some_iff.mp h).1 (by omega)
  names h := h
  rest := rfl

theorem rules_eq_of_symbols {id : SymbolId}
    (h : ∀ s, d.symbols[id.index]? = some s → e.symbols[id.index]? = some s)
    (hr : d.rules id ≠ []) : e.rules id = d.rules id := by
  cases hs : d.get? id with
  | none => simp [rules, hs] at hr
  | some s =>
    have hget : e.get? id = some s := by
      rw [get?_eq_some_iff] at hs ⊢
      exact ⟨h s hs.1, hs.2⟩
    rw [rules_of_get? hs, rules_of_get? hget]

variable {roots others : List SymbolId}

theorem Adds.keepsMade (h : Adds n K d e roots) : KeepsMade n d e :=
  fun _ _ hr => rules_eq_of_symbols (h.old _) hr

theorem Adds.mono (h : Adds n K d e roots) (hroots : ∀ x ∈ roots, x ∈ others) :
    Adds n K d e others where
  old := h.old
  new i s hs hi := by
    obtain ⟨hreads, hbelow⟩ := h.new i s hs hi
    exact ⟨hreads, Below.trans (fun x hx => .root (hroots x hx)) hbelow⟩
  names := h.names
  rest := h.rest

theorem Adds.length_le (h : Adds n K d e roots) : d.symbols.length ≤ e.symbols.length := by
  by_contra hlt
  have hsome : d.symbols[e.symbols.length]? = some d.symbols[e.symbols.length] :=
    List.getElem?_eq_getElem (by omega)
  have hnone := (List.getElem?_eq_some_iff.mp (h.old _ _ hsome)).1
  omega

theorem Adds.trans (hde : Adds n K d e roots) (hef : Adds n K e f others) :
    Adds n K d f (roots ++ others) where
  old i s h := hef.old i s (hde.old i s h)
  new i s h hi := by
    by_cases hlt : i < e.symbols.length
    · have he := List.getElem?_eq_getElem hlt
      have hs : e.symbols[i] = s := Option.some.inj ((hef.old i _ he).symm.trans h)
      obtain ⟨⟨tokens, ht, hname, hreads⟩, hbelow⟩ := hde.new i s (hs ▸ he) hi
      refine ⟨⟨tokens, ht, hname, hreads.mono hef.keepsMade⟩, ?_⟩
      exact Below.trans (fun x hx => .root (by simp [hx])) (hbelow.mono hef.keepsMade)
    · obtain ⟨hreads, hbelow⟩ := hef.new i s h (by omega)
      exact ⟨hreads, Below.trans (fun x hx => .root (by simp [hx])) hbelow⟩
  names h := hef.names (hde.names h)
  rest := by rw [hef.rest, hde.rest]

/-- Every symbol named for so many tokens at most reads them. -/
def MadeUpTo (n : Nat) (K : SymbolId → List String → Prop) (k : Nat) (d : Draft) : Prop :=
  ∀ (i : Nat) s tokens, d.symbols[i]? = some s → (∀ t ∈ tokens, IsToken t) →
    tokens.length ≤ k → s.name = rowName tokens → d.Reads n K ⟨i⟩ tokens

theorem MadeUpTo.adds {k : Nat} (hmade : MadeUpTo n K k d) (h : Adds n K d e roots) :
    MadeUpTo n K k e := by
  intro i s tokens hs ht hk hname
  by_cases hlt : i < d.symbols.length
  · have hd := List.getElem?_eq_getElem hlt
    have heq : d.symbols[i] = s := Option.some.inj ((h.old i _ hd).symm.trans hs)
    exact (hmade i s tokens (heq ▸ hd) ht hk hname).mono h.keepsMade
  · obtain ⟨⟨us, hu, hname', hreads⟩, -⟩ := h.new i s hs (by omega)
    rw [rowName_injective ht hu (hname.symm.trans hname')]
    exact hreads

theorem MadeUpTo.le {j k : Nat} (h : MadeUpTo n K k d) (hjk : j ≤ k) : MadeUpTo n K j d :=
  fun i s tokens hs ht hj hname => h i s tokens hs ht (Nat.le_trans hj hjk) hname

/-- A name is found, or a symbol is made under it. -/
theorem madeOnce_cases (name : String) (fill : SymbolId → Draft → Draft) (d : Draft) :
    (∃ i s, d.symbols[i]? = some s ∧ s.name = name ∧ madeOnce name fill d = (⟨i⟩, d)) ∨
    (∀ s ∈ d.symbols, s.name ≠ name) ∧
      madeOnce name fill d = (⟨d.symbols.length⟩, fill ⟨d.symbols.length⟩
        (d.appendSymbol { name := name, isTermSequence := true }).2) := by
  unfold madeOnce
  cases h : d.symbols.findIdx? (·.name == name) with
  | some i =>
    obtain ⟨hi, hname, -⟩ := List.findIdx?_eq_some_iff_getElem.mp h
    exact Or.inl ⟨i, d.symbols[i], List.getElem?_eq_getElem hi, by simpa using hname, rfl⟩
  | none =>
    refine Or.inr ⟨fun s hs => ?_, rfl⟩
    simpa using List.findIdx?_eq_none_iff.mp h s hs

/-- The only rule of a symbol that had none. -/
theorem getElem?_appendRule {id : SymbolId} {s : Symbol} {r : Rule}
    (hs : d.symbols[id.index]? = some s) (hnone : s.rules = []) (i : Nat) :
    (d.appendRule id r).symbols[i]? =
      if id.index = i then some { s with rules := [r] } else d.symbols[i]? := by
  have hempty : d.rules id = [] := by
    cases hget : d.get? id with
    | none => simp [rules, hget]
    | some t =>
      have ht := (get?_eq_some_iff.mp hget).1.symm.trans hs
      rw [rules_of_get? hget, Option.some.inj ht, hnone]
  have hlacks : d.lacks id r = true := by simp [lacks, hempty]
  rw [appendRule, if_pos hlacks, modifySymbol, List.getElem?_modify]
  by_cases hi : id.index = i
  · subst hi
    simp [hs, hnone]
  · simp [hi]

section Fill

variable {tokens : List String} {r : Rule}

/-- What is made for the tokens: a new symbol with one rule, whose parts are made before the rule
is given. -/
theorem adds_of_fresh (hn : n ≤ d.symbols.length) (htokens : ∀ t ∈ tokens, IsToken t)
    (hfresh : ∀ s ∈ d.symbols, s.name ≠ rowName tokens)
    (hadd : Adds n K (d.appendSymbol { name := rowName tokens, isTermSequence := true }).2 e roots)
    (hroots : ∀ x ∈ roots, x ∈ r.expansion.parts)
    (hreads : KeepsMade n e (e.appendRule ⟨d.symbols.length⟩ r) →
      (e.appendRule ⟨d.symbols.length⟩ r).rules ⟨d.symbols.length⟩ = [r] →
      (e.appendRule ⟨d.symbols.length⟩ r).Reads n K ⟨d.symbols.length⟩ tokens) :
    Adds n K d (e.appendRule ⟨d.symbols.length⟩ r) [⟨d.symbols.length⟩] ∧
      (e.appendRule ⟨d.symbols.length⟩ r).Reads n K ⟨d.symbols.length⟩ tokens := by
  have hpending : e.symbols[d.symbols.length]? =
      some { name := rowName tokens, isTermSequence := true } :=
    hadd.old _ _ (by simp [appendSymbol])
  have hget := @getElem?_appendRule e ⟨d.symbols.length⟩ _ r hpending rfl
  have hrules : (e.appendRule ⟨d.symbols.length⟩ r).rules ⟨d.symbols.length⟩ = [r] :=
    rules_of_get? (get?_eq_some_iff.mpr ⟨by rw [hget, if_pos rfl], rfl⟩)
  have hnone : e.rules ⟨d.symbols.length⟩ = [] :=
    rules_of_get? (get?_eq_some_iff.mpr ⟨hpending, rfl⟩)
  have hkeeps : KeepsMade n e (e.appendRule ⟨d.symbols.length⟩ r) := by
    intro id _ hr
    have hid : d.symbols.length ≠ id.index := by
      intro hid
      apply hr
      rw [← hnone, hid]
    exact rules_eq_of_symbols (fun s hs => by rw [hget, if_neg hid]; exact hs) hr
  have hdone := hreads hkeeps hrules
  have hroot : (e.appendRule ⟨d.symbols.length⟩ r).Below n [⟨d.symbols.length⟩]
      ⟨d.symbols.length⟩ := .root (by simp)
  refine ⟨⟨fun i s hs => ?_, fun i s hs hi => ?_, fun h => ?_, ?_⟩, hdone⟩
  · have hi : d.symbols.length ≠ i := by
      have := (List.getElem?_eq_some_iff.mp hs).1
      omega
    rw [hget, if_neg hi]
    refine hadd.old i s ?_
    rw [appendSymbol, List.getElem?_append_left (List.getElem?_eq_some_iff.mp hs).1]
    exact hs
  · rw [hget] at hs
    split at hs
    next heq =>
      subst heq
      obtain rfl := Option.some.inj hs
      exact ⟨⟨tokens, htokens, rfl, hdone⟩, hroot⟩
    next hne =>
      have hlt : d.symbols.length + 1 ≤ i := Nat.lt_of_le_of_ne hi hne
      obtain ⟨⟨us, hu, hname, hus⟩, hbelow⟩ := hadd.new i s hs (by simpa [appendSymbol] using hlt)
      refine ⟨⟨us, hu, hname, hus.mono hkeeps⟩, Below.trans (fun x hx => ?_) (hbelow.mono hkeeps)⟩
      exact .step hroot hn (by simp [hrules]) (hroots x hx)
  · rw [names_appendRule]
    exact hadd.names (nodup_names_concat h hfresh)
  · have hsame : (e.appendRule ⟨d.symbols.length⟩ r) =
        { e with symbols := (e.appendRule ⟨d.symbols.length⟩ r).symbols } := by
      unfold appendRule
      split <;> rfl
    rw [hsame, hadd.rest]
    rfl

end Fill

/-- What a search for the symbol of the tokens answers with: the symbol, and the draft with the
symbols made on the way. -/
structure Makes (n : Nat) (K : SymbolId → List String → Prop) (d : Draft) (tokens : List String)
    (made : SymbolId × Draft) : Prop where
  adds : Adds n K d made.2 [made.1]
  reads : made.2.Reads n K made.1 tokens

theorem makes_of_found {tokens : List String} {i : Nat} {s : Symbol}
    (hmade : MadeUpTo n K tokens.length d) (htokens : ∀ t ∈ tokens, IsToken t)
    (hs : d.symbols[i]? = some s) (hname : s.name = rowName tokens) :
    Makes n K d tokens (⟨i⟩, d) :=
  ⟨Adds.refl n K d _, hmade i s tokens hs htokens (Nat.le_refl _) hname⟩

theorem makes_nothingReader (hn : n ≤ d.symbols.length) (hmade : MadeUpTo n K 0 d) :
    Makes n K d [] (nothingReader d) := by
  unfold nothingReader
  rcases madeOnce_cases emptyName
    (fun id d => d.appendRule id { expansion := .terminal emptyName .silent }) d with
    ⟨i, s, hs, hname, heq⟩ | ⟨hfresh, heq⟩
  · rw [heq]
    exact makes_of_found hmade (by simp) hs hname
  · rw [heq]
    obtain ⟨hadds, hreads⟩ := adds_of_fresh hn (List.forall_mem_nil _) hfresh
      (Adds.refl n K _ []) (List.forall_mem_nil _) fun _ hrules => .nothing hn hrules
    exact ⟨hadds, hreads⟩

theorem makes_tokenReader (hn : n ≤ d.symbols.length) (hmade : MadeUpTo n K 1 d) {token : String}
    (ht : IsToken token) : Makes n K d [token] (tokenReader token d) := by
  unfold tokenReader
  rcases madeOnce_cases ("<tok:" ++ token ++ ">")
    (fun id d => d.appendRule id { expansion := .terminal token .verbatim }) d with
    ⟨i, s, hs, hname, heq⟩ | ⟨hfresh, heq⟩
  · rw [heq]
    exact makes_of_found hmade (by simpa using ht) hs hname
  · rw [heq]
    obtain ⟨hadds, hreads⟩ := adds_of_fresh hn (List.forall_mem_singleton.mpr ht)
      hfresh (Adds.refl n K _ []) (List.forall_mem_nil _) fun _ hrules => .token hn ht hrules
    exact ⟨hadds, hreads⟩

theorem madeUpTo_appendSymbol {tokens : List String} {k : Nat} (hmade : MadeUpTo n K k d)
    (htokens : ∀ t ∈ tokens, IsToken t) (hk : k < tokens.length) :
    MadeUpTo n K k (d.appendSymbol { name := rowName tokens, isTermSequence := true }).2 := by
  intro i s us hs hu hle hname
  have hkeeps : KeepsMade n d
      (d.appendSymbol { name := rowName tokens, isTermSequence := true }).2 := by
    intro id _ hr
    refine rules_eq_of_symbols (fun s hs => ?_) hr
    exact (List.getElem?_append_left (List.getElem?_eq_some_iff.mp hs).1).trans hs
  rcases Nat.lt_or_ge i d.symbols.length with hlt | hge
  · rw [appendSymbol, List.getElem?_append_left hlt] at hs
    exact (hmade i s us hs hu hle hname).mono hkeeps
  · rw [appendSymbol, List.getElem?_append_right hge] at hs
    have hs' := List.mem_singleton.mp (List.mem_of_getElem? hs)
    have heq := rowName_injective htokens hu (by rw [← hname, hs'])
    rw [← heq] at hle
    omega

/-- The rest of a row is made while its first symbol has a name but no rules yet, which stands for
more tokens than any symbol that is looked for. -/
theorem makes_rowSymbol {rest : List String} : ∀ {d : Draft} {token : String},
    n ≤ d.symbols.length → MadeUpTo n K (rest.length + 1) d → (∀ t ∈ token :: rest, IsToken t) →
    Makes n K d (token :: rest) (rowSymbol token rest d) := by
  induction rest with
  | nil =>
    intro d token hn hmade ht
    exact makes_tokenReader hn hmade (ht token (by simp))
  | cons next rest ih =>
    intro d token hn hmade ht
    rcases madeOnce_cases (rowName (token :: next :: rest)) (fun id d =>
        let head := d.tokenReader token
        let tail := rowSymbol next rest head.2
        tail.2.appendRule id { expansion := .sequence head.1 (some tail.1) .verbatim }) d with
      ⟨i, s, hs, hname, heq⟩ | ⟨hfresh, heq⟩
    · rw [show rowSymbol token (next :: rest) d = _ from heq]
      exact makes_of_found hmade ht hs hname
    · have hpending : MadeUpTo n K (rest.length + 1) (d.appendSymbol
          { name := rowName (token :: next :: rest), isTermSequence := true }).2 :=
        madeUpTo_appendSymbol (hmade.le (by simp)) ht (by simp)
      have hlength : n ≤ (d.appendSymbol
          { name := rowName (token :: next :: rest), isTermSequence := true }).2.symbols.length := by
        simpa [appendSymbol] using Nat.le_succ_of_le hn
      have hhead := makes_tokenReader hlength (hpending.le (by simp)) (ht token (by simp))
      have htail := ih (Nat.le_trans hlength hhead.adds.length_le) (hpending.adds hhead.adds)
        fun t h => ht t (List.mem_cons_of_mem _ h)
      obtain ⟨hadds, hreads⟩ := adds_of_fresh hn ht hfresh (hhead.adds.trans htail.adds)
        (r := { expansion := .sequence _ (some _) .verbatim }) (by simp [Expansion.parts])
        fun hkeeps hrules => .row hn (by simp) hrules
          ((hhead.reads.mono htail.adds.keepsMade).mono hkeeps) (htail.reads.mono hkeeps)
      rw [show rowSymbol token (next :: rest) d = _ from heq]
      exact ⟨hadds, hreads⟩

end Draft

end QueryGrammar
