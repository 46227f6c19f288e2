import CrateAnalysis.Proofs.Syntax.Expected
import Mathlib.Data.Finset.Sort
import Mathlib.Data.String.Basic

/-!
# The message for a set of literals

What was expected is described by a text that is a function of a set: of the literals of the names,
in whatever order these come and however often. `listing` puts a set in order, first the closing
delimiters in it and then its other literals, by code points. `message` shows the first ten of them.
Since there are only four closing delimiters, each of them that is in the set is shown.
-/

set_option autoImplicit false

namespace CrateAnalysis

namespace Expected

/-- The closing delimiters as they are shown, in the order in which they are listed. -/
def closingLiterals : List String := ["'\x7d'", "')'", "']'", "';'"]

/-- The literals of some names, as a set. -/
def literalSet (names : List String) : Finset String := (names.map literal).toFinset

/-- The literals of a set in the order in which they are listed: the closing delimiters among them
by their own order, and then the others by code points. -/
def listing (literals : Finset String) : List String :=
  closingLiterals.filter (· ∈ literals) ++ (literals \ closingLiterals.toFinset).sort

/-- The text that says that one of these literals was expected. -/
def message (literals : Finset String) : String :=
  if literals = ∅ then "nada"
  else
    ", ".intercalate ((listing literals).take (min 10 literals.card)) ++
      if 10 < literals.card then ", ..." else ""

/-! ## The order of a listing -/

/-- The closing delimiters are shown between quotes. -/
theorem closers_eq : closers = closingLiterals := by decide

/-- All literals but the closing delimiters have one rank, the last. -/
theorem rank_of_not_closing {shown : String} (h : shown ∉ closingLiterals) : rank shown = 4 := by
  rw [rank, closers_eq]
  exact List.idxOf_of_notMem h

/-- A closing delimiter ranks before all other literals. -/
theorem rank_of_closing {shown : String} (h : shown ∈ closingLiterals) : rank shown < 4 := by
  rw [rank, closers_eq]
  exact List.idxOf_lt_length_of_mem h

/-- A listing has just the literals of the set. -/
theorem mem_listing {literals : Finset String} {shown : String} :
    shown ∈ listing literals ↔ shown ∈ literals := by
  by_cases h : shown ∈ closingLiterals <;> simp [listing, h]

/-- A listing has every literal once. -/
theorem nodup_listing (literals : Finset String) : (listing literals).Nodup := by
  have hclosing : closingLiterals.Nodup := by decide
  refine List.Nodup.append (hclosing.filter _) (Finset.sort_nodup _ _) ?_
  intro shown hfirst hsecond
  rw [Finset.mem_sort, Finset.mem_sdiff, List.mem_toFinset] at hsecond
  exact hsecond.2 (List.mem_of_mem_filter hfirst)

/-- A listing is in the order of literals. -/
theorem pairwise_listing (literals : Finset String) :
    (listing literals).Pairwise (precedes · ·) := by
  rw [listing, List.pairwise_append]
  refine ⟨?_, ?_, ?_⟩
  · have hclosing : closingLiterals.Pairwise (precedes · ·) := by decide
    exact hclosing.filter _
  · have hsorted := Finset.pairwise_sort (literals \ closingLiterals.toFinset) (· ≤ ·)
    refine hsorted.imp_of_mem ?_
    intro a b ha hb hle
    rw [Finset.mem_sort, Finset.mem_sdiff, List.mem_toFinset] at ha hb
    rw [precedes_iff, rank_of_not_closing ha.2, rank_of_not_closing hb.2]
    exact .inr ⟨rfl, hle⟩
  · intro a ha b hb
    rw [Finset.mem_sort, Finset.mem_sdiff, List.mem_toFinset] at hb
    rw [precedes_iff, rank_of_not_closing hb.2]
    exact .inl (rank_of_closing (List.mem_of_mem_filter ha))

/-- The set is known from its listing. -/
theorem toFinset_listing (literals : Finset String) : (listing literals).toFinset = literals := by
  ext shown
  rw [List.mem_toFinset, mem_listing]

/-- A listing is as long as the set is large. -/
theorem length_listing (literals : Finset String) :
    (listing literals).length = literals.card := by
  rw [← List.toFinset_card_of_nodup (nodup_listing literals), toFinset_listing]

/-- As many literals are listed as terminals were expected. -/
theorem card_literalSet_names {terminals : List Terminal} (h : terminals.Nodup) :
    (literalSet (terminals.map Terminal.name)).card = terminals.length := by
  have hliterals : (terminals.map Terminal.name).map literal = terminals.map showTerminal := by
    rw [List.map_map]
    exact List.map_congr_left fun terminal _ => literal_name terminal
  rw [literalSet, hliterals, List.toFinset_card_of_nodup (h.map showTerminal_injective),
    List.length_map]

/-- The literals of some names are listed as their set is. -/
theorem ordered_eq_listing (names : List String) : ordered names = listing (literalSet names) := by
  have hperm : List.Perm (ordered names) (listing (literalSet names)) := by
    rw [List.perm_ext_iff_of_nodup (nodup_ordered names) (nodup_listing _)]
    intro shown
    rw [mem_ordered_iff, mem_listing, literalSet, List.mem_toFinset]
  exact hperm.eq_of_pairwise (fun _ _ _ _ hab hba => precedes_antisymm hab hba)
    (pairwise_ordered names) (pairwise_listing _)

/-! ## The message -/

/-- What is said of some names is the message for the set of their literals. -/
theorem describe_eq_message (names : List String) :
    describe names = message (literalSet names) := by
  have hlength := length_listing (literalSet names)
  unfold describe message
  rw [ordered_eq_listing]
  split
  next hnil =>
    rw [hnil, List.length_nil] at hlength
    rw [if_pos (Finset.card_eq_zero.mp hlength.symm)]
  next hne =>
    have hset : literalSet names ≠ ∅ := by
      intro hempty
      exact hne (List.length_eq_zero_iff.mp (hlength.trans (Finset.card_eq_zero.mpr hempty)))
    rw [if_neg hset, ← hlength, ← List.take_eq_take_min]
    rfl

/-- No more than the closing delimiters come before any of them. -/
theorem mem_take_listing {literals : Finset String} {closer : String}
    (hclosing : closer ∈ closingLiterals) (hmem : closer ∈ literals) :
    closer ∈ (listing literals).take 10 := by
  have hlength : (closingLiterals.filter (· ∈ literals)).length ≤ 10 :=
    (List.length_filter_le _ _).trans (by decide)
  rw [listing, List.take_append, List.take_of_length_le hlength]
  exact List.mem_append_left _ (List.mem_filter.mpr ⟨hclosing, decide_eq_true hmem⟩)

/-- What is said of some names depends on the set of their literals alone: it is the message for
that set, which lists every literal once and never leaves out a closing delimiter. -/
theorem describe_of_literals :
    (∀ names others : List String,
      literalSet names = literalSet others → describe names = describe others) ∧
      ∀ names : List String,
        describe names = message (literalSet names) ∧
          (listing (literalSet names)).Nodup ∧
          (listing (literalSet names)).toFinset = literalSet names ∧
          ∀ closer ∈ closingLiterals, closer ∈ literalSet names →
            closer ∈ (listing (literalSet names)).take 10 := by
  constructor
  · intro names others hset
    rw [describe_eq_message, describe_eq_message, hset]
  · intro names
    refine ⟨describe_eq_message names, nodup_listing _, toFinset_listing _, ?_⟩
    intro closer hclosing hmem
    exact mem_take_listing hclosing hmem

end Expected

end CrateAnalysis
