import QueryGrammar.Text.CaseData
/-!
Lower-casing of a word by the full mapping: one character may become two, and a capital sigma
that ends a word becomes the final form.
-/
namespace QueryGrammar.Text

/-- Whether one of the spans holds the character. -/
def inSpans (spans : List (Nat × Nat)) (c : Char) : Bool :=
  spans.any fun s => s.1 ≤ c.toNat && c.toNat ≤ s.2

def isCased (c : Char) : Bool := inSpans casedSpans c

def isCaseIgnorable (c : Char) : Bool := inSpans caseIgnorableSpans c

/-- The lower-case form of a character outside any context. A dotted capital I keeps its dot as a
combining character. -/
def lowerChar (c : Char) : List Char :=
  if c.toNat < 0x80 then [if 'A' ≤ c && c ≤ 'Z' then Char.ofNat (c.toNat + 32) else c]
  else if c.toNat == 0x130 then ['i', Char.ofNat 0x307]
  else match lowerSpans.find? (·.holds c.toNat) with
    | some s => [Char.ofNat ((c.toNat : Int) + s.shift).toNat]
    | none => [c]

/-- Whether the first character that case does not ignore is a cased one. -/
def casedNext (cs : List Char) : Bool :=
  (cs.dropWhile isCaseIgnorable).head?.any isCased

/-- Lower-cases the rest of a word; `before` holds what precedes it, nearest first. A sigma is final
when a cased character precedes it and none follows. -/
def lowerAfter (before : List Char) : List Char → List Char
  | [] => []
  | c :: cs =>
    (if c == 'Σ' then [if casedNext before && !casedNext cs then 'ς' else 'σ']
      else lowerChar c) ++ lowerAfter (c :: before) cs

/-- The lower-case form of a word. -/
def lowerWord (word : List Char) : List Char :=
  lowerAfter [] word

end QueryGrammar.Text
