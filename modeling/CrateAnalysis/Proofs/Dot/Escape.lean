import CrateAnalysis.Proofs.Dot.Decode
import CrateAnalysis.Proofs.Token.Unreadable

/-!
# What escaping makes of a text

Between quotes a text has to stay on its line, every quote in it has to be protected by a backslash
that protects nothing else, and the quote after it must not be protected. `Enclosable` says this by
counting the backslashes that stand before a place. The step that protects quotes changes no such
text. Every escaped text is one, and what stands between quotes can be read back, so that no two
texts have one escaped form.
-/

set_option autoImplicit false

namespace CrateAnalysis

namespace Dot

open Pattern (oddRun oddRun_append oddRun_eq)

/-- How many backslashes a text ends in. -/
def backslashRun (cs : List Char) : Nat := (cs.reverse.takeWhile (· = '\\')).length

/-- A text that can stand between quotes as it is. -/
structure Enclosable (cs : List Char) : Prop where
  newline : '\n' ∉ cs
  tab : '\t' ∉ cs
  carriageReturn : '\r' ∉ cs
  quotes : ∀ before after, cs = before ++ '"' :: after → backslashRun before % 2 = 1
  ending : backslashRun cs % 2 = 0

/-- The text of which these characters are the escaped form; there is none where a quote among them
ends it, or where they protect the quote after them. -/
def unescaped? (escaped : String) : Option String :=
  match readQuoted (escaped.toList ++ ['"']) with
  | some (text, []) => some (String.ofList text)
  | _ => none

/-! ## Protected quotes -/

/-- A quote would be protected just after an odd number of backslashes. -/
theorem oddRun_eq_true_iff (cs : List Char) : oddRun false cs = true ↔ backslashRun cs % 2 = 1 := by
  rw [oddRun_eq, decide_eq_true_eq, backslashRun]

/-- The quotes of a text that begins with `c` are this one, if it is one, and those of the rest. -/
theorem forall_quote_cons {c : Char} {cs : List Char} {p : List Char → Prop} :
    (∀ before after, c :: cs = before ++ '"' :: after → p before) ↔
      (c = '"' → p []) ∧ ∀ before after, cs = before ++ '"' :: after → p (c :: before) := by
  constructor
  · intro h
    refine ⟨?_, ?_⟩
    · rintro rfl
      exact h [] cs rfl
    · rintro before after rfl
      exact h (c :: before) after rfl
  · rintro ⟨hfirst, hrest⟩ before after heq
    cases before with
    | nil => exact hfirst (List.cons.inj heq).1
    | cons d before =>
      obtain ⟨rfl, htail⟩ := List.cons.inj heq
      exact hrest before after htail

/-- The step that protects quotes leaves a text as it is exactly if an odd run of backslashes stands
before each of its quotes. -/
theorem protectQuotes_eq_self_iff (odd : Bool) (cs : List Char) :
    protectQuotes odd cs = cs ↔
      ∀ before after, cs = before ++ '"' :: after → oddRun odd before = true := by
  induction cs generalizing odd with
  | nil => simp [protectQuotes]
  | cons c cs ih =>
    rw [forall_quote_cons]
    simp only [oddRun]
    by_cases hbackslash : c = '\\'
    · simp [protectQuotes, hbackslash, ih]
    · by_cases hquote : c = '"'
      · cases odd <;> simp [protectQuotes, hquote, ih]
      · simp [protectQuotes, hbackslash, hquote, ih]

/-- A text that can be put between quotes has none left to protect. -/
theorem Enclosable.protectQuotes_eq {cs : List Char} (h : Enclosable cs) :
    protectQuotes false cs = cs := by
  rw [protectQuotes_eq_self_iff]
  intro before after heq
  rw [oddRun_eq_true_iff]
  exact h.quotes before after heq

/-! ## Escaped texts -/

/-- What is written for a character does not end in an odd run of backslashes. -/
theorem oddRun_escapeChar (c : Char) : oddRun false (escapeChar c) = false := by
  rcases escapeChar_cases c with ⟨mark, -, h⟩ | ⟨hplain, h⟩
  · simp [h, oddRun]
  · have hbackslash : c ≠ '\\' := hplain ('\\', '\\') (by simp [escapes])
    simp [h, oddRun, hbackslash]

/-- No escaped text ends in a backslash that would protect the closing quote. -/
theorem oddRun_escapeChars (cs : List Char) : oddRun false (escapeChars cs) = false := by
  induction cs with
  | nil => rfl
  | cons c cs ih => rw [escapeChars_cons, oddRun_append, oddRun_escapeChar, ih]

/-- Every escaped text can be put between quotes. -/
theorem enclosable_escapeChars (cs : List Char) : Enclosable (escapeChars cs) where
  newline := not_mem_escapeChars (.inl rfl) cs
  tab := not_mem_escapeChars (.inr (.inl rfl)) cs
  carriageReturn := not_mem_escapeChars (.inr (.inr rfl)) cs
  quotes before after heq := by
    rw [← oddRun_eq_true_iff]
    exact (protectQuotes_eq_self_iff false _).mp (protectQuotes_escapeChars cs) before after heq
  ending := by
    have hrun : ¬ backslashRun (escapeChars cs) % 2 = 1 := by
      rw [← oddRun_eq_true_iff, oddRun_escapeChars]
      exact Bool.false_ne_true
    omega

/-- Every text is known from its escaped form. -/
theorem unescaped?_escape (s : String) : unescaped? (escape (some s)) = some s := by
  simp [unescaped?, escape, readQuoted_escapeChars]

/-- Escaping writes each character on its own, it can be undone, and its result can stand between
quotes as it is. -/
theorem escape_enclosable :
    Function.Injective (fun s : String => escape (some s)) ∧
      ∀ s : String,
        escape (some s) = String.ofList (s.toList.flatMap escapeChar) ∧
          unescaped? (escape (some s)) = some s ∧
          Enclosable (escape (some s)).toList ∧
          protectQuotes false (escape (some s)).toList = (escape (some s)).toList := by
  constructor
  · intro s t heq
    have hread : unescaped? (escape (some s)) = unescaped? (escape (some t)) :=
      congrArg unescaped? heq
    rw [unescaped?_escape, unescaped?_escape] at hread
    exact Option.some.inj hread
  · intro s
    have henclosable : Enclosable (escape (some s)).toList := by
      rw [escape, String.toList_ofList]
      exact enclosable_escapeChars s.toList
    refine ⟨?_, unescaped?_escape s, henclosable, henclosable.protectQuotes_eq⟩
    rw [escape, escapeChars_eq_flatMap]

end Dot

end CrateAnalysis
