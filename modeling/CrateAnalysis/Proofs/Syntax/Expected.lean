import CrateAnalysis.Proofs.Token.Terminal
import CrateAnalysis.Syntax.Expected
import Mathlib.Data.List.Nodup

/-!
# What could come next depends on a set

A name is shown as the spelling of its terminal between quotes, if this terminal has one, and as
itself otherwise, but for the end of input. Different terminals are shown differently, so a
description tells which of them were expected. It lists each literal once, in an order that is
total. Two lists of names are therefore described alike as soon as their literals are the same
set, whatever their order and however often a name is repeated.
-/

set_option autoImplicit false

namespace CrateAnalysis

namespace Expected

/-! ## How a name is shown -/

/-- The name of a terminal is shown as the terminal is. -/
theorem literal_name (terminal : Terminal) : literal terminal.name = showTerminal terminal := by
  have hend : ∀ t ∈ Terminal.all, t.name ≠ endName := by decide +kernel
  rw [literal, if_neg (hend terminal terminal.mem_all), Terminal.ofName?_name, Option.elim_some]

/-- A terminal with a spelling is shown as this spelling between quotes. -/
theorem showTerminal_of_spelling {terminal : Terminal} {spelling : String}
    (h : terminal.spelling? = some spelling) : showTerminal terminal = "'" ++ spelling ++ "'" := by
  rw [showTerminal, h]

/-- A class of text is shown as its name. -/
theorem showTerminal_of_class {terminal : Terminal} (h : terminal.spelling? = none) :
    showTerminal terminal = terminal.name := by
  rw [showTerminal, h]

/-- The end of input is shown as the text of its token, the name of a terminal with a spelling as
this spelling between quotes, and every other name as itself. -/
theorem literal_cases :
    literal "$END" = "<EOF>" ∧
      (∀ (terminal : Terminal) (spelling : String), terminal.spelling? = some spelling →
        literal terminal.name = "'" ++ spelling ++ "'") ∧
      ∀ name : String, name ≠ "$END" →
        (∀ terminal : Terminal, terminal.name = name → terminal.spelling? = none) →
        literal name = name := by
  refine ⟨if_pos rfl, ?_, ?_⟩
  · intro terminal spelling h
    rw [literal_name, showTerminal_of_spelling h]
  · intro name hend hclass
    have hend' : name ≠ endName := hend
    cases hfound : Terminal.ofName? name with
    | none => rw [literal, if_neg hend', hfound, Option.elim_none]
    | some terminal =>
      have hname : terminal.name = name := by simpa using List.find?_some hfound
      rw [← hname, literal_name, showTerminal_of_class (hclass terminal hname)]

/-- No name begins with a quote, so it is not mistaken for a spelling. -/
theorem name_ne_quoted (terminal : Terminal) (spelling : String) :
    terminal.name ≠ "'" ++ spelling ++ "'" := by
  have hhead : ∀ t ∈ Terminal.all, t.name.toList.head? ≠ some '\'' := by decide +kernel
  intro heq
  apply hhead terminal terminal.mem_all
  rw [heq, String.toList_append, String.toList_append]
  rfl

/-- Different terminals are shown differently. -/
theorem showTerminal_injective : Function.Injective showTerminal := by
  intro a b h
  cases ha : a.spelling? with
  | none =>
    rw [showTerminal_of_class ha] at h
    cases hb : b.spelling? with
    | none =>
      rw [showTerminal_of_class hb] at h
      exact Terminal.name_injective h
    | some other =>
      rw [showTerminal_of_spelling hb] at h
      exact absurd h (name_ne_quoted a other)
  | some spelling =>
    rw [showTerminal_of_spelling ha] at h
    cases hb : b.spelling? with
    | none =>
      rw [showTerminal_of_class hb] at h
      exact absurd h.symm (name_ne_quoted b spelling)
    | some other =>
      rw [showTerminal_of_spelling hb, String.append_left_inj, String.append_right_inj] at h
      exact Terminal.eq_of_spelling ha (h ▸ hb)

/-! ## The order of literals -/

/-- One literal precedes another if its rank is lower, or the ranks are equal and the code points in
order. -/
theorem precedes_iff {a b : String} :
    precedes a b = true ↔ rank a < rank b ∨ rank a = rank b ∧ a ≤ b := by
  simp [precedes]

/-- The order of literals is transitive. -/
theorem precedes_trans (a b c : String) (hab : precedes a b = true) (hbc : precedes b c = true) :
    precedes a c = true := by
  rw [precedes_iff] at *
  rcases hab with hab | ⟨hab, hle⟩
  · left
    omega
  · rcases hbc with hbc | ⟨hbc, hle'⟩
    · left
      omega
    · exact .inr ⟨hab.trans hbc, String.le_trans hle hle'⟩

/-- Of two literals one precedes the other. -/
theorem precedes_total (a b : String) : (precedes a b || precedes b a) = true := by
  rw [Bool.or_eq_true, precedes_iff, precedes_iff]
  rcases Nat.lt_trichotomy (rank a) (rank b) with hlt | heq | hgt
  · exact .inl (.inl hlt)
  · rcases String.le_total a b with hle | hle
    · exact .inl (.inr ⟨heq, hle⟩)
    · exact .inr (.inr ⟨heq.symm, hle⟩)
  · exact .inr (.inl hgt)

/-- Two literals that precede each other are the same. -/
theorem precedes_antisymm {a b : String} (hab : precedes a b = true)
    (hba : precedes b a = true) : a = b := by
  rw [precedes_iff] at hab hba
  rcases hab with hab | ⟨hab, hle⟩
  · omega
  · rcases hba with hba | ⟨-, hle'⟩
    · omega
    · exact String.le_antisymm hle hle'

/-- Once repetitions are dropped, none is left. -/
theorem nodup_eraseDups (literals : List String) : literals.eraseDups.Nodup := by
  induction hlength : literals.length using Nat.strongRecOn generalizing literals with
  | ind length ih =>
    cases literals with
    | nil =>
      rw [List.eraseDups_nil]
      exact List.nodup_nil
    | cons first rest =>
      rw [List.eraseDups_cons, List.nodup_cons, List.mem_eraseDups]
      refine ⟨by simp, ih _ ?_ _ rfl⟩
      rw [← hlength]
      exact Nat.lt_succ_of_le (List.length_filter_le _ _)

/-- The literals of some names are listed in order. -/
theorem pairwise_ordered (names : List String) : (ordered names).Pairwise (precedes · ·) :=
  List.pairwise_mergeSort precedes_trans precedes_total _

/-- No literal is listed twice. -/
theorem nodup_ordered (names : List String) : (ordered names).Nodup :=
  (List.mergeSort_perm _ _).nodup_iff.mpr (nodup_eraseDups _)

/-- What is listed are the literals of the names. -/
theorem mem_ordered_iff {names : List String} {shown : String} :
    shown ∈ ordered names ↔ shown ∈ names.map literal := by
  rw [ordered, List.mem_mergeSort, List.mem_eraseDups]

/-- The same literals are listed in the same way. -/
theorem ordered_congr {names others : List String}
    (h : ∀ shown, shown ∈ names.map literal ↔ shown ∈ others.map literal) :
    ordered names = ordered others := by
  have hperm : List.Perm (ordered names) (ordered others) := by
    rw [List.perm_ext_iff_of_nodup (nodup_ordered names) (nodup_ordered others)]
    intro shown
    rw [mem_ordered_iff, mem_ordered_iff, h]
  exact hperm.eq_of_pairwise (fun _ _ _ _ hab hba => precedes_antisymm hab hba)
    (pairwise_ordered names) (pairwise_ordered others)

end Expected

end CrateAnalysis
