import QueryGrammar.Json.Reader
import QueryGrammar.Text.Quoted
/-!
A text between quotes is written so that it can be read back, character by character: what is no
escape stands for itself, and the number of a character ends at the closing brace. So texts that
are quoted alike are alike.
-/
namespace QueryGrammar.Text

/-! ### Numbers in braces -/

/-- The number that hexadecimal digits stand for. -/
def hexValue (digits : List Char) : Nat :=
  digits.foldl (fun value c => 16 * value + (Json.hexDigit? c).getD 0) 0

theorem hexDigit?_digitChar_getD : ∀ n < 16, (Json.hexDigit? (Nat.digitChar n)).getD 0 = n := by
  decide

theorem digitChar_ne_brace : ∀ n < 16, Nat.digitChar n ≠ '\x7d' := by
  decide

theorem hexDigits_of_le {n : Nat} (h : 16 ≤ n) :
    hexDigits n = hexDigits (n / 16) ++ [Nat.digitChar (n % 16)] :=
  Nat.toDigits_of_base_le (by decide) h

theorem hexValue_hexDigits (n : Nat) : hexValue (hexDigits n) = n := by
  induction n using Nat.strongRecOn with
  | ind n ih =>
    by_cases hn : n < 16
    · have hdigits : hexDigits n = [Nat.digitChar n] := Nat.toDigits_of_lt_base hn
      simp [hdigits, hexValue, hexDigit?_digitChar_getD n hn]
    · have hlast : (Json.hexDigit? (Nat.digitChar (n % 16))).getD 0 = n % 16 :=
        hexDigit?_digitChar_getD _ (Nat.mod_lt n (by decide))
      have hrest := ih (n / 16) (by omega)
      rw [hexValue] at hrest ⊢
      rw [hexDigits_of_le (by omega), List.foldl_append, hrest, List.foldl_cons, List.foldl_nil,
        hlast]
      exact Nat.div_add_mod n 16

theorem ne_brace_of_mem_hexDigits {n : Nat} {c : Char} (h : c ∈ hexDigits n) : c ≠ '\x7d' := by
  induction n using Nat.strongRecOn with
  | ind n ih =>
    by_cases hn : n < 16
    · have hdigits : hexDigits n = [Nat.digitChar n] := Nat.toDigits_of_lt_base hn
      rw [hdigits, List.mem_singleton] at h
      exact h ▸ digitChar_ne_brace n hn
    · rw [hexDigits_of_le (by omega)] at h
      rcases List.mem_append.mp h with h | h
      · exact ih (n / 16) (by omega) h
      · exact List.mem_singleton.mp h ▸ digitChar_ne_brace _ (Nat.mod_lt n (by decide))

/-! ### Reading back -/

/-- What a character after a backslash stands for. -/
def unescaped : Char → Char
  | '0' => '\x00'
  | 't' => '\t'
  | 'r' => '\r'
  | 'n' => '\n'
  | c => c

/-- The first character of what was quoted, and the rest. -/
def readQuoted : List Char → Option (Char × List Char)
  | '\\' :: 'u' :: '\x7b' :: rest =>
    some (Char.ofNat (hexValue (rest.takeWhile (· != '\x7d'))),
      (rest.dropWhile (· != '\x7d')).tail)
  | '\\' :: c :: rest => some (unescaped c, rest)
  | c :: rest => some (c, rest)
  | [] => none

theorem readQuoted_nil : readQuoted [] = none := rfl

theorem readQuoted_quotedChar (c : Char) (rest : List Char) :
    readQuoted (quotedChar c ++ rest) = some (c, rest) := by
  by_cases hescaped : c ∈ ['\x00', '\t', '\r', '\n', '\\', '"']
  · simp only [List.mem_cons, List.not_mem_nil, or_false] at hescaped
    rcases hescaped with rfl | rfl | rfl | rfl | rfl | rfl <;> rfl
  · simp only [List.mem_cons, List.not_mem_nil, or_false, not_or] at hescaped
    obtain ⟨h₁, h₂, h₃, h₄, hbackslash, hquote⟩ := hescaped
    have hplain : quotedChar c =
        if inSpans graphemeExtendSpans c || inSpans unprintableSpans c then
          ['\\', 'u', '\x7b'] ++ hexDigits c.toNat ++ ['\x7d']
        else [c] := by
      simp [quotedChar, h₁, h₂, h₃, h₄, hbackslash, hquote]
    rw [hplain]
    split
    · have hall : ∀ x ∈ hexDigits c.toNat, (x != '\x7d') = true := fun x hx => by
        simpa using ne_brace_of_mem_hexDigits hx
      simp [readQuoted, List.takeWhile_append_of_pos hall, List.dropWhile_append_of_pos hall,
        hexValue_hexDigits]
    · simp [readQuoted, hbackslash]

theorem flatMap_quotedChar_injective :
    Function.Injective fun cs : List Char => cs.flatMap quotedChar := by
  intro cs ds h
  induction cs generalizing ds with
  | nil =>
    cases ds with
    | nil => rfl
    | cons d ds =>
      have hread := congrArg readQuoted h
      simp [readQuoted_quotedChar, readQuoted_nil] at hread
  | cons c cs ih =>
    have hread := congrArg readQuoted h
    cases ds with
    | nil => simp [readQuoted_quotedChar, readQuoted_nil] at hread
    | cons d ds =>
      simp only [List.flatMap_cons, readQuoted_quotedChar, Option.some.injEq,
        Prod.mk.injEq] at hread
      obtain ⟨rfl, hrest⟩ := hread
      rw [ih hrest]

/-- Texts that are quoted alike are alike. -/
theorem quoted_injective : Function.Injective quoted := by
  intro s t h
  have hbody : s.toList.flatMap quotedChar = t.toList.flatMap quotedChar := by
    simpa [quoted, String.ofList_inj] using h
  exact String.toList_inj.mp (flatMap_quotedChar_injective hbody)

@[simp] theorem head_quoted (text : String) : (quoted text).toList.head? = some '"' := by
  simp [quoted]

end QueryGrammar.Text
