import CrateAnalysis.Token.Basic

/-!
# Names of terminals

The list of all terminals is complete, and their symbolic names tell them apart from each other
and from the end of input. A list of kinds is therefore the list of names of at most one word of
terminals. A word in the text has a terminal with a spelling only if it is that spelling.
-/

set_option autoImplicit false

namespace CrateAnalysis

namespace Terminal

/-- The list of terminals is complete. -/
theorem mem_all (terminal : Terminal) : terminal ∈ all := by
  cases terminal <;> decide

/-- No terminal has the name of the end of input. -/
theorem name_ne_endKind (terminal : Terminal) : terminal.name ≠ Token.endKind := by
  cases terminal <;> decide

/-- A terminal is found again under its name. -/
theorem ofName?_name (terminal : Terminal) : ofName? terminal.name = some terminal := by
  have h : ∀ t ∈ all, ofName? t.name = some t := by decide +kernel
  exact h terminal terminal.mem_all

/-- Different terminals have different names. -/
theorem name_injective : ∀ {a b : Terminal}, a.name = b.name → a = b := by
  intro a b h
  have hfound := ofName?_name a
  rw [h, ofName?_name b, Option.some.injEq] at hfound
  exact hfound.symm

/-- A terminal with a spelling is found again under it. -/
theorem find?_spelling {terminal : Terminal} {spelling : String}
    (h : terminal.spelling? = some spelling) :
    all.find? (·.spelling? = some spelling) = some terminal := by
  have hfound : ∀ t ∈ all, ∀ s ∈ t.spelling?, all.find? (·.spelling? = some s) = some t := by
    decide +kernel
  exact hfound terminal terminal.mem_all spelling h

/-- The spelling tells a terminal apart. -/
theorem eq_of_spelling {a b : Terminal} {spelling : String} (ha : a.spelling? = some spelling)
    (hb : b.spelling? = some spelling) : a = b :=
  Option.some.inj ((find?_spelling ha).symm.trans (find?_spelling hb))

/-- A word is known from the names of its terminals. -/
theorem map_name_injective {first second : List Terminal}
    (h : first.map name = second.map name) : first = second :=
  (List.map_inj_right fun _ _ => name_injective).mp h

/-- A word whose terminal has a spelling is that spelling, for only keywords have one. -/
theorem eq_spelling_of_ofWord {word : List Char} {spelling : String}
    (h : (ofWord word).spelling? = some spelling) : word = spelling.toList := by
  rw [ofWord] at h
  cases hkeyword : keyword? word with
  | none =>
    rw [hkeyword] at h
    cases h
  | some keyword =>
    rw [hkeyword, Option.getD_some] at h
    have hfound := List.find?_some hkeyword
    rw [h, decide_eq_true_iff] at hfound
    exact (Option.some.inj hfound).symm

end Terminal

end CrateAnalysis
