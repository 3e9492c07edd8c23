import QueryGrammar.Json.Reader
import QueryGrammar.Json.Writer
/-!
The compact form of a value determines the value. Forms are compared together with what follows
them: numbers end before a mark that no number contains, and every other form shows its own end.
Main statement: `Json.toCompact_injective`.
-/
namespace QueryGrammar

/-! ### Numbers -/

namespace Numeral

/-- Digits alone before the point, at least one and no needless zero, and after it. -/
structure InDigits (n : Numeral) : Prop where
  ne_nil : n.whole ≠ []
  leading : n.whole.head? = some '0' → n.whole.length = 1
  whole : ∀ c ∈ n.whole, c.isDigit
  fraction : ∀ c ∈ n.fraction, c.isDigit

/-- The text does not go on as a number does. -/
def Ends (rest : List Char) : Prop :=
  ∀ c ∈ rest.head?, c.isDigit = false ∧ c ≠ '.' ∧ c ≠ 'e' ∧ c ≠ 'E'

def fractionText (digits : List Char) : List Char :=
  if digits.isEmpty then [] else '.' :: digits

def exponentText : Option Int → List Char
  | none => []
  | some e => ['e', if e < 0 then '-' else '+'] ++ Nat.toDigits 10 e.natAbs

theorem write_eq (n : Numeral) : n.write =
    (if n.negative then ['-'] else []) ++ n.whole ++ fractionText n.fraction ++
      exponentText n.exponent := by
  unfold write
  cases n.exponent <;> rfl

theorem digits_append_inj {ds es r r' : List Char} (hds : ∀ c ∈ ds, c.isDigit)
    (hes : ∀ c ∈ es, c.isDigit) (hr : ∀ c ∈ r.head?, c.isDigit = false)
    (hr' : ∀ c ∈ r'.head?, c.isDigit = false) (h : ds ++ r = es ++ r') : ds = es ∧ r = r' := by
  have hstop : ∀ rest : List Char, (∀ c ∈ rest.head?, c.isDigit = false) →
      rest.takeWhile Char.isDigit = [] := by
    intro rest hrest
    cases rest with
    | nil => rfl
    | cons c cs => simp [hrest c (by simp)]
  have hprefix := congrArg (List.takeWhile Char.isDigit) h
  rw [List.takeWhile_append_of_pos hds, List.takeWhile_append_of_pos hes, hstop r hr,
    hstop r' hr', List.append_nil, List.append_nil] at hprefix
  subst hprefix
  exact ⟨rfl, List.append_cancel_left h⟩

theorem exponentText_append_inj {e f : Option Int} {r r' : List Char} (hr : Ends r)
    (hr' : Ends r') (h : exponentText e ++ r = exponentText f ++ r') : e = f ∧ r = r' := by
  have hdigits : ∀ n : Nat, ∀ c ∈ Nat.toDigits 10 n, c.isDigit := fun n c hc =>
    Nat.isDigit_of_mem_toDigits (by decide) (by decide) hc
  cases e with
  | none =>
    cases f with
    | none => exact ⟨rfl, h⟩
    | some f => exact absurd rfl (hr 'e' (by simp [show r = _ from h, exponentText])).2.2.1
  | some e =>
    cases f with
    | none => exact absurd rfl ( hr' 'e' (by simp [show r' = _ from h.symm, exponentText])).2.2.1
    | some f =>
      obtain ⟨hsign, h⟩ := by simpa [exponentText] using h
      obtain ⟨habs, rfl⟩ := digits_append_inj (hdigits _) (hdigits _) (fun c hc => (hr c hc).1)
        (fun c hc => (hr' c hc).1) h
      have hnat : e.natAbs = f.natAbs := by
        rw [← Nat.ofDigitChars_ten_toDigits (n := e.natAbs), habs,
          Nat.ofDigitChars_ten_toDigits]
      have hneg : e < 0 ↔ f < 0 := by
        by_cases he : e < 0 <;> by_cases hf : f < 0 <;> simp [he, hf] at hsign ⊢
      exact ⟨congrArg some (by omega), rfl⟩

theorem ends_exponentText {e : Option Int} {r : List Char} (hr : Ends r) :
    ∀ c ∈ (exponentText e ++ r).head?, c.isDigit = false ∧ c ≠ '.' := by
  cases e with
  | none => exact fun c hc => ⟨(hr c hc).1, (hr c hc).2.1⟩
  | some e =>
    intro c hc
    obtain rfl : 'e' = c := by simpa [exponentText] using hc
    decide

theorem fractionText_append_inj {fs gs r r' : List Char} (hfs : ∀ c ∈ fs, c.isDigit)
    (hgs : ∀ c ∈ gs, c.isDigit) (hr : ∀ c ∈ r.head?, c.isDigit = false ∧ c ≠ '.')
    (hr' : ∀ c ∈ r'.head?, c.isDigit = false ∧ c ≠ '.')
    (h : fractionText fs ++ r = fractionText gs ++ r') : fs = gs ∧ r = r' := by
  cases fs with
  | nil =>
    cases gs with
    | nil => exact ⟨rfl, h⟩
    | cons g gs => exact absurd rfl (hr '.' (by simp [show r = _ from h, fractionText])).2
  | cons f fs =>
    cases gs with
    | nil => exact absurd rfl ( hr' '.' (by simp [show r' = _ from h.symm, fractionText])).2
    | cons g gs =>
      exact digits_append_inj hfs hgs (fun c hc => (hr c hc).1) (fun c hc => (hr' c hc).1)
        (List.cons.inj h).2

theorem ends_fractionText {fs r : List Char}
    (hr : ∀ c ∈ r.head?, c.isDigit = false ∧ c ≠ '.') :
    ∀ c ∈ (fractionText fs ++ r).head?, c.isDigit = false := by
  cases fs with
  | nil => exact fun c hc => (hr c hc).1
  | cons f fs =>
    intro c hc
    obtain rfl : '.' = c := by simpa [fractionText] using hc
    decide

theorem write_append_inj {n m : Numeral} {r r' : List Char} (hn : n.InDigits) (hm : m.InDigits)
    (hr : Ends r) (hr' : Ends r') (h : n.write ++ r = m.write ++ r') : n = m ∧ r = r' := by
  obtain ⟨negative, whole, fraction, exponent⟩ := n
  obtain ⟨negative', whole', fraction', exponent'⟩ := m
  obtain ⟨hne, -, hwhole, hfraction⟩ := hn
  obtain ⟨hne', -, hwhole', hfraction'⟩ := hm
  simp only [write_eq, List.append_assoc] at h hne hwhole hfraction hne' hwhole' hfraction'
  have hunsigned : whole ++ (fractionText fraction ++ (exponentText exponent ++ r)) =
        whole' ++ (fractionText fraction' ++ (exponentText exponent' ++ r')) →
      whole = whole' ∧ fraction = fraction' ∧ exponent = exponent' ∧ r = r' := by
    intro h
    obtain ⟨hw, h⟩ := digits_append_inj hwhole hwhole'
      (ends_fractionText (ends_exponentText hr)) (ends_fractionText (ends_exponentText hr')) h
    obtain ⟨hf, h⟩ := fractionText_append_inj hfraction hfraction' (ends_exponentText hr)
      (ends_exponentText hr') h
    obtain ⟨he, h⟩ := exponentText_append_inj hr hr' h
    exact ⟨hw, hf, he, h⟩
  have hminus : ∀ {ds rest : List Char}, ds ≠ [] → (∀ c ∈ ds, c.isDigit) →
      ∀ {cs : List Char}, ds ++ rest ≠ '-' :: cs := by
    intro ds rest hne hds cs heq
    cases ds with
    | nil => exact hne rfl
    | cons d ds =>
      have hd := hds d (by simp)
      rw [(List.cons.inj heq).1] at hd
      exact absurd hd (by decide)
  cases negative <;> cases negative'
  · obtain ⟨rfl, rfl, rfl, rfl⟩ := hunsigned (by simpa using h)
    exact ⟨rfl, rfl⟩
  · exact absurd (by simpa using h) (hminus hne hwhole)
  · exact absurd (by simpa using h.symm) (hminus hne' hwhole')
  · obtain ⟨rfl, rfl, rfl, rfl⟩ := hunsigned (by simpa using h)
    exact ⟨rfl, rfl⟩

end Numeral

/-! ### Strings -/

namespace Json

/-- The piece of a string that a reader takes a written character for. -/
def pieceOf (c : Char) : Piece :=
  if c.toNat < 0x20 ∧ c ∉ ['\x08', '\x0c', '\n', '\r', '\t'] then .unit c.toNat else .char c

theorem hexDigit?_digitChar : ∀ n < 16, hexDigit? (Nat.digitChar n) = some n := by
  decide

theorem readPieces_escapeChar (c : Char) (rest : List Char) :
    readPieces (escapeChar c ++ rest) =
      (readPieces rest).map fun p => (pieceOf c :: p.1, p.2) := by
  by_cases h : c ∈ ['"', '\\', '\x08', '\x0c', '\n', '\r', '\t']
  · simp only [List.mem_cons, List.not_mem_nil, or_false] at h
    rcases h with rfl | rfl | rfl | rfl | rfl | rfl | rfl <;>
      cases hrest : readPieces rest <;>
      simp [escapeChar, readPieces, escaped?, pieceOf, hrest]
  simp only [List.mem_cons, List.not_mem_nil, or_false, not_or] at h
  obtain ⟨hquote, hbackslash, h₁, h₂, h₃, h₄, h₅⟩ := h
  by_cases hc : c.toNat < 0x20
  · have hhigh := hexDigit?_digitChar (c.toNat / 16) (by omega)
    have hlow := hexDigit?_digitChar (c.toNat % 16) (by omega)
    have hzero : hexDigit? '0' = some 0 := by decide
    have hsum : 16 * (c.toNat / 16) + c.toNat % 16 = c.toNat := by omega
    simp [escapeChar, pieceOf, readPieces, hquote, hbackslash, h₁, h₂, h₃, h₄, h₅, hc, hhigh,
      hlow, hzero, hsum]
    cases readPieces rest <;> rfl
  · simp [escapeChar, pieceOf, hquote, hbackslash, h₁, h₂, h₃, h₄, h₅, hc]
    rw [readPieces.eq_def]
    split <;> simp_all
    next rest _ _ =>
      rw [if_neg (by omega)]
      cases readPieces rest <;> rfl

theorem textOfPieces_pieceOf (cs : List Char) : textOfPieces (cs.map pieceOf) = some cs := by
  induction cs with
  | nil => rfl
  | cons c cs ih =>
    rw [List.map_cons, pieceOf]
    split
    next h =>
      have hlt : c.toNat < 0xD800 := by omega
      rw [textOfPieces.eq_def]
      simp [hlt, ih]
    next =>
      rw [textOfPieces, ih]
      rfl

/-- A written string reads back as itself. -/
theorem readString_escaped (s : String) (rest : List Char) :
    readString (s.toList.flatMap escapeChar ++ '"' :: rest) = some (some s, rest) := by
  have hpieces : ∀ cs : List Char, readPieces (cs.flatMap escapeChar ++ '"' :: rest) =
      some (cs.map pieceOf, rest) := by
    intro cs
    induction cs with
    | nil => simp [readPieces]
    | cons c cs ih => simp [readPieces_escapeChar, ih]
  simp [readString, hpieces, textOfPieces_pieceOf]

theorem writeString_append_inj {s t : String} {r r' : List Char}
    (h : writeString (some s) ++ r = writeString (some t) ++ r') : s = t ∧ r = r' := by
  have htail : s.toList.flatMap escapeChar ++ '"' :: r =
      t.toList.flatMap escapeChar ++ '"' :: r' := by
    simpa [writeString] using h
  have hread := readString_escaped s r
  rw [htail, readString_escaped t r'] at hread
  obtain ⟨hst, hr⟩ := Prod.mk.inj (Option.some.inj hread)
  exact ⟨(Option.some.inj hst).symm, hr.symm⟩

/-! ### Values -/

/-- Every string is a text and every number is written in digits. -/
inductive Plain : Json → Prop where
  | null : Plain .null
  | bool (b : Bool) : Plain (.bool b)
  | number {n : Numeral} (digits : n.InDigits) : Plain (.number n)
  | text (s : String) : Plain (.text s)
  | array {items : List Json} (plain : ∀ x ∈ items, Plain x) : Plain (.array items)
  | record {members : List (String × Json)} (plain : ∀ m ∈ members, Plain m.2) :
      Plain (.record members)

/-- The values sorted by how their forms begin. -/
def kind : Json → Nat
  | .null => 0
  | .bool true => 1
  | .bool false => 2
  | .number _ => 3
  | .string _ => 4
  | .array _ => 5
  | .object _ => 6

/-- The kind of the values whose forms begin with the character. -/
def kindOf (c : Char) : Nat :=
  if c = 'n' then 0 else if c = 't' then 1 else if c = 'f' then 2 else if c = '"' then 4
  else if c = '[' then 5 else if c = '\x7b' then 6 else 3

theorem head_write {n : Numeral} (h : n.InDigits) :
    ∃ c cs, n.write = c :: cs ∧ (c = '-' ∨ c.isDigit = true) := by
  rw [Numeral.write_eq]
  cases n.negative with
  | true => exact ⟨'-', _, rfl, Or.inl rfl⟩
  | false =>
    obtain ⟨c, cs, hw⟩ := List.exists_cons_of_ne_nil h.ne_nil
    rw [hw]
    exact ⟨c, _, rfl, Or.inr (h.whole c (by simp [hw]))⟩

theorem kindOf_of_number {c : Char} (h : c = '-' ∨ c.isDigit = true) :
    kindOf c = 3 ∧ c ≠ ']' := by
  rcases h with rfl | h
  · decide
  have hne : ∀ d : Char, d.isDigit = false → c ≠ d := by
    rintro d hd rfl
    simp [h] at hd
  unfold kindOf
  simp [hne]

theorem head_compact {j : Json} (h : j.Plain) :
    ∃ c cs, j.compact = c :: cs ∧ kindOf c = j.kind ∧ c ≠ ']' := by
  cases h with
  | null => exact ⟨'n', _, rfl, by decide, by decide⟩
  | bool b => cases b <;> exact ⟨_, _, rfl, by decide, by decide⟩
  | number hn =>
    obtain ⟨c, cs, hw, hc⟩ := head_write hn
    exact ⟨c, cs, by rw [compact, hw], kindOf_of_number hc⟩
  | text s => exact ⟨'"', _, rfl, by simp [kindOf, kind, text], by decide⟩
  | @array items _ => cases items <;> exact ⟨'[', _, rfl, by simp [kindOf, kind], by decide⟩
  | @record members _ =>
    cases members <;> exact ⟨'\x7b', _, rfl, by simp [kindOf, kind, record], by decide⟩

/-- No other value has a form that begins as the one of `j` does, unless it goes on. -/
def Determined (j : Json) : Prop :=
  ∀ k r r', k.Plain → Numeral.Ends r → Numeral.Ends r' → j.compact ++ r = k.compact ++ r' →
    j = k ∧ r = r'

theorem ends_cons {c : Char} {r : List Char}
    (hc : c.isDigit = false ∧ c ≠ '.' ∧ c ≠ 'e' ∧ c ≠ 'E') : Numeral.Ends (c :: r) := by
  intro x hx
  obtain rfl : c = x := by simpa using hx
  exact hc

theorem ends_items (xs : List Json) (r : List Char) :
    Numeral.Ends (compactItems xs ++ ']' :: r) := by
  cases xs with
  | nil => exact ends_cons (by decide)
  | cons x xs => exact ends_cons (by decide)

theorem ends_members (ms : List (Option String × Json)) (r : List Char) :
    Numeral.Ends (compactMembers ms ++ '\x7d' :: r) := by
  cases ms with
  | nil => exact ends_cons (by decide)
  | cons m ms => exact ends_cons (by decide)

theorem compactItems_append_inj {xs ys : List Json} {r r' : List Char}
    (hxs : ∀ x ∈ xs, x.Determined) (hys : ∀ y ∈ ys, y.Plain)
    (h : compactItems xs ++ ']' :: r = compactItems ys ++ ']' :: r') : xs = ys ∧ r = r' := by
  induction xs generalizing ys with
  | nil =>
    cases ys with
    | nil => exact ⟨rfl, (List.cons.inj h).2⟩
    | cons y ys => simp [compactItems] at h
  | cons x xs ih =>
    cases ys with
    | nil => simp [compactItems] at h
    | cons y ys =>
      simp only [compactItems, List.append_assoc, List.cons_append, List.cons.injEq,
        true_and] at h
      obtain ⟨rfl, h'⟩ := hxs x (by simp) y _ _ (hys y (by simp)) (ends_items xs r)
        (ends_items ys r') h
      obtain ⟨rfl, rfl⟩ := ih (fun x hx => hxs x (List.mem_cons_of_mem _ hx))
        (fun y hy => hys y (List.mem_cons_of_mem _ hy)) h'
      exact ⟨rfl, rfl⟩

/-- The members of an object as they stand in its form. -/
def named (members : List (String × Json)) : List (Option String × Json) :=
  members.map fun m => (some m.1, m.2)

theorem member_append_inj {m k : String × Json} {r r' : List Char} (hm : m.2.Determined)
    (hk : k.2.Plain) (hr : Numeral.Ends r) (hr' : Numeral.Ends r')
    (h : writeString (some m.1) ++ ':' :: (m.2.compact ++ r) =
      writeString (some k.1) ++ ':' :: (k.2.compact ++ r')) : m = k ∧ r = r' := by
  obtain ⟨hname, h⟩ := writeString_append_inj h
  obtain ⟨hvalue, hrest⟩ := hm k.2 r r' hk hr hr' (List.cons.inj h).2
  exact ⟨Prod.ext hname hvalue, hrest⟩

theorem compactMembers_append_inj {ms ks : List (String × Json)} {r r' : List Char}
    (hms : ∀ m ∈ ms, m.2.Determined) (hks : ∀ k ∈ ks, k.2.Plain)
    (h : compactMembers (named ms) ++ '\x7d' :: r = compactMembers (named ks) ++ '\x7d' :: r') :
    ms = ks ∧ r = r' := by
  induction ms generalizing ks with
  | nil =>
    cases ks with
    | nil => exact ⟨rfl, (List.cons.inj h).2⟩
    | cons k ks => simp [named, compactMembers] at h
  | cons m ms ih =>
    cases ks with
    | nil => simp [named, compactMembers] at h
    | cons k ks =>
      simp only [named, List.map_cons, compactMembers, List.append_assoc, List.cons_append,
        List.cons.injEq, true_and] at h
      obtain ⟨rfl, h'⟩ := member_append_inj (hms m (by simp)) (hks k (by simp))
        (ends_members (named ms) r) (ends_members (named ks) r') h
      obtain ⟨rfl, rfl⟩ := ih (fun m hm => hms m (List.mem_cons_of_mem _ hm))
        (fun k hk => hks k (List.mem_cons_of_mem _ hk)) h'
      exact ⟨rfl, rfl⟩

theorem kind_eq_of_append {j k : Json} {r r' : List Char} (hj : j.Plain) (hk : k.Plain)
    (h : j.compact ++ r = k.compact ++ r') : j.kind = k.kind := by
  obtain ⟨c, cs, hc, hkind, -⟩ := head_compact hj
  obtain ⟨d, ds, hd, hkind', -⟩ := head_compact hk
  rw [hc, hd] at h
  rw [← hkind, ← hkind', (List.cons.inj h).1]

theorem determined_array {xs : List Json} (hxs : ∀ x ∈ xs, x.Plain ∧ x.Determined)
    {ys : List Json} (hys : ∀ y ∈ ys, y.Plain) {r r' : List Char}
    (h : (array xs).compact ++ r = (array ys).compact ++ r') : xs = ys ∧ r = r' := by
  cases xs with
  | nil =>
    cases ys with
    | nil => exact ⟨rfl, by simpa [compact] using h⟩
    | cons y ys =>
      obtain ⟨c, cs, hc, -, hne⟩ := head_compact (hys y (by simp))
      simp [compact, hc, Ne.symm hne] at h
  | cons x xs =>
    cases ys with
    | nil =>
      obtain ⟨c, cs, hc, -, hne⟩ := head_compact (hxs x (by simp)).1
      simp [compact, hc, hne] at h
    | cons y ys =>
      simp only [compact, List.append_assoc, List.cons_append, List.nil_append, List.cons.injEq,
        true_and] at h
      obtain ⟨rfl, h'⟩ := (hxs x (by simp)).2 y _ _ (hys y (by simp)) (ends_items xs r)
        (ends_items ys r') h
      obtain ⟨rfl, rfl⟩ := compactItems_append_inj
        (fun x hx => (hxs x (List.mem_cons_of_mem _ hx)).2)
        (fun y hy => hys y (List.mem_cons_of_mem _ hy)) h'
      exact ⟨rfl, rfl⟩

theorem determined_record {ms : List (String × Json)} (hms : ∀ m ∈ ms, m.2.Determined)
    {ks : List (String × Json)} (hks : ∀ k ∈ ks, k.2.Plain) {r r' : List Char}
    (h : (record ms).compact ++ r = (record ks).compact ++ r') : ms = ks ∧ r = r' := by
  cases ms with
  | nil =>
    cases ks with
    | nil => exact ⟨rfl, by simpa [record, compact] using h⟩
    | cons k ks => simp [record, compact, writeString] at h
  | cons m ms =>
    cases ks with
    | nil => simp [record, compact, writeString] at h
    | cons k ks =>
      simp only [record, List.map_cons, compact, List.append_assoc, List.cons_append,
        List.nil_append, List.cons.injEq, true_and] at h
      obtain ⟨rfl, h'⟩ := member_append_inj (hms m (by simp)) (hks k (by simp))
        (ends_members (named ms) r) (ends_members (named ks) r') h
      obtain ⟨rfl, rfl⟩ := compactMembers_append_inj
        (fun m hm => hms m (List.mem_cons_of_mem _ hm))
        (fun k hk => hks k (List.mem_cons_of_mem _ hk)) h'
      exact ⟨rfl, rfl⟩

theorem Plain.determined {j : Json} (hj : j.Plain) : j.Determined := by
  induction hj with
  | null =>
    intro k r r' hk _ _ h
    have hkind := kind_eq_of_append .null hk h
    cases hk with
    | null => exact ⟨rfl, by simpa [compact] using h⟩
    | bool b => cases b <;> nomatch hkind
    | _ => nomatch hkind
  | bool b =>
    intro k r r' hk _ _ h
    have hkind := kind_eq_of_append (.bool b) hk h
    cases hk with
    | bool c =>
      cases b <;> cases c
      · exact ⟨rfl, by simpa [compact] using h⟩
      · nomatch hkind
      · nomatch hkind
      · exact ⟨rfl, by simpa [compact] using h⟩
    | _ => cases b <;> nomatch hkind
  | number hn =>
    intro k r r' hk hr hr' h
    have hkind := kind_eq_of_append (.number hn) hk h
    cases hk with
    | number hm =>
      obtain ⟨rfl, rfl⟩ := Numeral.write_append_inj hn hm hr hr' h
      exact ⟨rfl, rfl⟩
    | bool b => cases b <;> nomatch hkind
    | _ => nomatch hkind
  | text s =>
    intro k r r' hk _ _ h
    have hkind := kind_eq_of_append (.text s) hk h
    cases hk with
    | text t =>
      obtain ⟨rfl, rfl⟩ := writeString_append_inj h
      exact ⟨rfl, rfl⟩
    | bool b => cases b <;> nomatch hkind
    | _ => nomatch hkind
  | array hxs ih =>
    intro k r r' hk _ _ h
    have hkind := kind_eq_of_append (.array hxs) hk h
    cases hk with
    | array hys =>
      obtain ⟨rfl, rfl⟩ := determined_array (fun x hx => ⟨hxs x hx, ih x hx⟩) hys h
      exact ⟨rfl, rfl⟩
    | bool b => cases b <;> nomatch hkind
    | _ => nomatch hkind
  | record hms ih =>
    intro k r r' hk _ _ h
    have hkind := kind_eq_of_append (.record hms) hk h
    cases hk with
    | record hks =>
      obtain ⟨rfl, rfl⟩ := determined_record ih hks h
      exact ⟨rfl, rfl⟩
    | bool b => cases b <;> nomatch hkind
    | _ => nomatch hkind

/-- Different values have different compact forms. -/
theorem toCompact_injective {j k : Json} (hj : j.Plain) (hk : k.Plain)
    (h : j.toCompact = k.toCompact) : j = k := by
  have hends : Numeral.Ends [] := by simp [Numeral.Ends]
  refine (hj.determined k [] [] hk hends hends ?_).1
  simpa [toCompact, String.ofList_inj] using h

end Json

end QueryGrammar
