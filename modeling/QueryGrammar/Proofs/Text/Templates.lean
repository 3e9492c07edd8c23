import Mathlib.Data.List.Nodup
import QueryGrammar.Name
/-!
Names that differ whatever stem they are made from. A family of names puts texts around one stem;
two of them can only coincide for some stem if the texts around it are as long and have as many plus
signs, and a fixed name only if it starts and ends as they do.
-/
namespace QueryGrammar.Name

/-- A text around a stem, or one without a stem. -/
inductive Template where
  | around (before after : String)
  | fixed (text : String)

namespace Template

def fill (stem : String) : Template → String
  | around before after => before ++ stem ++ after
  | fixed text => text

/-- Whether the two give different names for every stem, as far as their own texts show it. -/
def Apart : Template → Template → Prop
  | around before after, around before' after' =>
    before.length + after.length ≠ before'.length + after'.length ∨
      before.toList.count '+' + after.toList.count '+' ≠
        before'.toList.count '+' + after'.toList.count '+' ∨
      before = before' ∧ after ≠ after'
  | around before after, fixed text | fixed text, around before after =>
    ¬ before.toList <+: text.toList ∨ ¬ after.toList <:+ text.toList
  | fixed text, fixed text' => text ≠ text'

instance (t u : Template) : Decidable (Apart t u) :=
  match t, u with
  | around _ _, around _ _ => inferInstanceAs (Decidable (_ ∨ _ ∨ _ ∧ _))
  | around _ _, fixed _ => inferInstanceAs (Decidable (_ ∨ _))
  | fixed _, around _ _ => inferInstanceAs (Decidable (_ ∨ _))
  | fixed _, fixed _ => inferInstanceAs (Decidable (_ ≠ _))

variable {t u : Template} {before after before' after' text : String}

theorem toList_fill (before after stem : String) :
    (fill stem (around before after)).toList = before.toList ++ (stem.toList ++ after.toList) := by
  simp [fill]

theorem fill_around_ne_fixed (stem : String) (h : Apart (around before after) (fixed text)) :
    fill stem (around before after) ≠ text := by
  intro heq
  have hlist := congrArg String.toList heq
  rw [toList_fill] at hlist
  rcases h with h | h
  · exact h ⟨_, hlist⟩
  · rw [← List.append_assoc] at hlist
    exact h ⟨_, hlist⟩

theorem fill_around_ne_around (stem : String)
    (h : Apart (around before after) (around before' after')) :
    fill stem (around before after) ≠ fill stem (around before' after') := by
  intro heq
  have hlist := congrArg String.toList heq
  rw [toList_fill, toList_fill] at hlist
  rcases h with h | h | ⟨rfl, h⟩
  · have hlength := congrArg List.length hlist
    simp only [List.length_append, String.length_toList] at hlength
    omega
  · have hcount := congrArg (List.count '+') hlist
    simp only [List.count_append] at hcount
    omega
  · exact h (String.toList_inj.mp (List.append_cancel_left (List.append_cancel_left hlist)))

theorem fill_ne_fill (stem : String) (h : Apart t u) : fill stem t ≠ fill stem u := by
  cases t with
  | around before after =>
    cases u with
    | around before' after' => exact fill_around_ne_around stem h
    | fixed text => exact fill_around_ne_fixed stem h
  | fixed text =>
    cases u with
    | around before after => exact Ne.symm (fill_around_ne_fixed stem h)
    | fixed text' => exact h

/-- Templates that are apart from each other give as many names for every stem. -/
theorem nodup_fill (stem : String) {ts : List Template} (h : ts.Pairwise Apart) :
    (ts.map (fill stem)).Nodup :=
  List.pairwise_map.mpr (h.imp (fill_ne_fill stem))

end Template

end QueryGrammar.Name
