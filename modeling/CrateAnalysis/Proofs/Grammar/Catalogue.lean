import CrateAnalysis.Grammar.Catalogue
import CrateAnalysis.Grammar.Rule
import CrateAnalysis.Proofs.Text.Parts

/-!
# Names of grammar texts

A grammar text is found under its name and under every path to it that stays in the directory of the
texts, and under nothing else. The catalogue names each text once, so no name can mean two of them.
-/

set_option autoImplicit false

namespace CrateAnalysis

namespace GrammarText

/-- A name is a path that stays in its directory: these steps, none of which leads away, and then
the last part. -/
structure Path (name : String) (steps : List (List Char)) (base : String) : Prop where
  parts_eq : Text.split '/' name.toList = steps ++ [base.toList]
  staysHere : ∀ step ∈ steps, step = ['.'] ∨ step = []
  relative : steps.head? ≠ some []

/-- The last part of a name is what its path ends with, if the name is a path that stays in its
directory. -/
theorem baseName?_eq_some_iff {name base : String} :
    baseName? name = some base ↔ ∃ steps, Path name steps base := by
  obtain ⟨steps, last, hparts⟩ : ∃ steps last, Text.split '/' name.toList = steps ++ [last] :=
    ⟨_, _, (List.dropLast_concat_getLast (Text.split_ne_nil '/' name.toList)).symm⟩
  have hbase : last = base.toList ↔ String.ofList last = base := by
    constructor
    · rintro rfl
      exact String.ofList_toList
    · rintro rfl
      exact String.toList_ofList.symm
  unfold baseName?
  rw [hparts]
  simp only [List.dropLast_concat, List.getLast?_concat, Option.map_some]
  constructor
  · intro h
    split at h
    next hsteps =>
      rw [Bool.and_eq_true, List.all_eq_true] at hsteps
      refine ⟨steps, ?_, ?_, ?_⟩
      · rw [hparts, hbase.mpr (Option.some.inj h)]
      · intro step hstep
        simpa [GrammarText.staysHere] using hsteps.1 step hstep
      · simpa using hsteps.2
    next => cases h
  · rintro ⟨others, hothers, hstays, hrelative⟩
    rw [hparts] at hothers
    obtain ⟨rfl, hlast⟩ := List.append_inj' hothers rfl
    rw [if_pos, hbase.mp (List.singleton_inj.mp hlast)]
    rw [Bool.and_eq_true, List.all_eq_true]
    refine ⟨fun step hstep => ?_, by simpa using hrelative⟩
    simpa [GrammarText.staysHere] using hstays step hstep

/-- Steps that do not leave the directory and a last part make a path, however many there are. -/
theorem path_of_steps {steps : List (List Char)} {base : String} (hbase : '/' ∉ base.toList)
    (hstays : ∀ step ∈ steps, step = ['.'] ∨ step = []) (hrelative : steps.head? ≠ some []) :
    Path (String.ofList (steps.flatMap (· ++ ['/']) ++ base.toList)) steps base where
  parts_eq := by
    have hseparator : ∀ step ∈ steps, '/' ∉ step := by
      intro step hstep
      rcases hstays step hstep with rfl | rfl
      · decide
      · exact List.not_mem_nil
    rw [String.toList_ofList, Text.split_flatMap_append hseparator, Text.split_of_not_mem hbase]
  staysHere := hstays
  relative := hrelative

/-- No two texts of the catalogue have one name. -/
theorem nodup_names : (catalogue.map name).Nodup := by
  decide

/-- A text of the catalogue is the one of its name. -/
theorem find?_name {text : GrammarText} (h : text ∈ catalogue) :
    catalogue.find? (·.name = text.name) = some text := by
  have hfound : ∀ text ∈ catalogue, catalogue.find? (·.name = text.name) = some text := by
    decide +kernel
  exact hfound text h

/-- A name finds a text just if it is a path to this text that stays in the directory. -/
theorem find?_eq_some_iff {name : String} {text : GrammarText} :
    find? name = some text ↔ text ∈ catalogue ∧ ∃ steps, Path name steps text.name := by
  rw [← baseName?_eq_some_iff]
  constructor
  · intro h
    obtain ⟨base, hbase, hfound⟩ := Option.bind_eq_some_iff.mp h
    obtain rfl : text.name = base := by simpa using List.find?_some hfound
    exact ⟨List.mem_of_find?_eq_some hfound, hbase⟩
  · rintro ⟨hmem, hbase⟩
    exact Option.bind_eq_some_iff.mpr ⟨text.name, hbase, find?_name hmem⟩

/-- A grammar text has more lines than there are rules and terminals, for it declares each of them
on a line of its own. -/
theorem declarations_lt_lineCount :
    ∀ text ∈ catalogue, RuleName.all.length + Terminal.all.length < text.lineCount := by
  decide +kernel

end GrammarText

end CrateAnalysis
