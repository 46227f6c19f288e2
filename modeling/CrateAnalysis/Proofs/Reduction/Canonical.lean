import CrateAnalysis.Proofs.Reduction.Remains

/-!
# Canonical names and categories

A canonical name lacks one suffix, and no more than one. A reduction labels a rule with the
canonical name of the rule and then looks the category up for the label, and the look-up drops a
suffix once more. So a rule is treated by the category of its own name exactly if there are no two
suffixes to drop. Of a name that ends in two suffixes, the label loses one and the category that
counts is the one of the name without both.
-/

set_option autoImplicit false

namespace CrateAnalysis

/-! ## Canonical names -/

/-- A suffix is dropped where something stands before it. -/
theorem canonicalName_append {stem : String} (hstem : stem ≠ "") :
    canonicalName (stem ++ "Context") = stem := by
  have hne : stem.toList ≠ [] := fun h => hstem (String.toList_eq_nil_iff.mp h)
  have hpos := List.length_pos_iff.mpr hne
  have hlist : (stem ++ "Context").toList = stem.toList ++ contextSuffix := String.toList_append
  have hlength : (stem.toList ++ contextSuffix).length - contextSuffix.length =
      stem.toList.length := by
    rw [List.length_append, Nat.add_sub_cancel]
  have hends : contextSuffix.isSuffixOf (stem.toList ++ contextSuffix) = true :=
    List.isSuffixOf_iff_suffix.mpr (List.suffix_append _ _)
  rw [canonicalName, hlist, if_pos, hlength, List.take_left, String.ofList_toList]
  refine ⟨?_, hends⟩
  rw [List.length_append]
  omega

/-- Any other name is canonical as it is. -/
theorem canonicalName_eq_self {name : String}
    (h : ∀ stem, stem ≠ "" → name ≠ stem ++ "Context") : canonicalName name = name := by
  rw [canonicalName]
  apply if_neg
  rintro ⟨hlength, hends⟩
  obtain ⟨stem, hstem⟩ := List.isSuffixOf_iff_suffix.mp hends
  have hname : name = String.ofList stem ++ "Context" := by
    apply String.toList_inj.mp
    rw [String.toList_append, String.toList_ofList, ← hstem]
    rfl
  refine h _ ?_ hname
  intro hempty
  rw [← hstem, String.ofList_eq_empty_iff.mp hempty] at hlength
  exact Nat.lt_irrefl _ hlength

/-- A name is the canonical one unless it ends in a suffix after something else. -/
theorem canonicalName_cases (name : String) :
    (∃ stem, stem ≠ "" ∧ name = stem ++ "Context" ∧ canonicalName name = stem) ∨
      canonicalName name = name := by
  by_cases h : ∀ stem, stem ≠ "" → name ≠ stem ++ "Context"
  · exact .inr (canonicalName_eq_self h)
  · left
    push Not at h
    obtain ⟨stem, hstem, rfl⟩ := h
    exact ⟨stem, hstem, rfl, canonicalName_append hstem⟩

/-- A name with the suffix is not the name without it. -/
theorem ne_append_context (stem : String) : stem ≠ stem ++ "Context" := by
  intro h
  have hlength := congrArg String.length h
  rw [String.length_append] at hlength
  have hsuffix : "Context".length = 7 := by decide
  omega

/-- Nothing is left to drop from a canonical name, unless there were two suffixes. -/
theorem canonicalName_canonicalName {name : String}
    (h : ∀ stem, stem ≠ "" → name ≠ stem ++ "Context" ++ "Context") :
    canonicalName (canonicalName name) = canonicalName name := by
  rcases canonicalName_cases name with ⟨stem, -, rfl, hcanonical⟩ | hcanonical
  · rw [hcanonical]
    apply canonicalName_eq_self
    rintro shorter hshorter rfl
    exact h shorter hshorter rfl
  · rw [hcanonical, hcanonical]

/-! ## How a rule is treated -/

/-- What becomes of a rule with a category and a label, given what is left of its children. -/
def ruleOutcome (category : Option RuleCategory) (label : String) (survivors : List Ast) :
    Option Ast :=
  if category = some .wrapper ∧ survivors.length = 1 then survivors.head?
  else if survivors.length = 0 ∧ category ≠ some .important then none
  else some (.rule label survivors)

/-- The category that counts is the one that is looked up for the label. -/
theorem reduceRule_eq_ruleOutcome (table : CategoryTable) (name : String)
    (survivors : List Ast) :
    reduceRule table name survivors =
      ruleOutcome (table.treatment name) (canonicalName name) survivors := by
  unfold ruleOutcome
  split
  next hreplaced =>
    obtain ⟨hwrapper, hlength⟩ := hreplaced
    obtain ⟨survivor, rfl⟩ := List.length_eq_one_iff.mp hlength
    exact reduceRule_replaced hwrapper
  next hreplaced =>
    split
    next hvanished =>
      obtain ⟨hlength, hplain⟩ := hvanished
      rw [List.length_eq_zero_iff.mp hlength]
      exact reduceRule_vanished hplain
    next hvanished =>
      apply reduceRule_kept
      · exact fun hwrapper hlength => hreplaced ⟨hwrapper, hlength⟩
      · intro hnil
        by_contra hplain
        exact hvanished ⟨List.length_eq_zero_iff.mpr hnil, hplain⟩

/-- The table in which a name is a wrapper and there is no other entry. -/
def CategoryTable.wrapperOnly (name : String) : CategoryTable := fun other =>
  if other = name then some .wrapper else none

/-- With the name without one suffix as the only wrapper, a name with two is not treated by its
own category. -/
theorem reduceRule_ne_of_two_suffixes {stem : String} (hstem : stem ≠ "") :
    let table := CategoryTable.wrapperOnly (stem ++ "Context")
    let name := stem ++ "Context" ++ "Context"
    reduceRule table name [.leaf "x"] ≠
      ruleOutcome (table.categoryOf name) (canonicalName name) [.leaf "x"] := by
  intro table name
  have hne : stem ++ "Context" ≠ "" := by simp
  have hlabel : canonicalName name = stem ++ "Context" := canonicalName_append hne
  have htreatment : table.treatment name = none := by
    rw [CategoryTable.treatment, CategoryTable.categoryOf, hlabel, canonicalName_append hstem]
    exact if_neg (ne_append_context stem)
  have hcategory : table.categoryOf name = some .wrapper := by
    rw [CategoryTable.categoryOf, hlabel]
    exact if_pos rfl
  rw [reduceRule_eq_ruleOutcome, htreatment, hcategory]
  simp [ruleOutcome]

/-- Every rule is labelled with its canonical name and treated by the category that is looked up
for that label. This is the category of the rule's own name, whatever the table and the survivors
are, exactly if the name does not end in two suffixes after something else. In particular a name
with the suffix appended is treated by the entry of the name itself, and labelled with it, exactly
if the name does not end in the suffix already. -/
theorem reduceRule_treatment_iff (name : String) :
    (∀ (table : CategoryTable) (survivors : List Ast),
      reduceRule table name survivors =
        ruleOutcome (table.categoryOf (canonicalName name)) (canonicalName name) survivors) ∧
    ((∀ (table : CategoryTable) (survivors : List Ast),
        reduceRule table name survivors =
          ruleOutcome (table.categoryOf name) (canonicalName name) survivors) ↔
      ∀ stem, stem ≠ "" → name ≠ stem ++ "Context" ++ "Context") ∧
    (name ≠ "" →
      ((∀ (table : CategoryTable) (survivors : List Ast),
          reduceRule table (name ++ "Context") survivors =
            ruleOutcome (table name) name survivors) ↔
        ∀ stem, stem ≠ "" → name ≠ stem ++ "Context")) := by
  have hown : ∀ name : String,
      (∀ (table : CategoryTable) (survivors : List Ast),
        reduceRule table name survivors =
          ruleOutcome (table.categoryOf name) (canonicalName name) survivors) ↔
      ∀ stem, stem ≠ "" → name ≠ stem ++ "Context" ++ "Context" := by
    intro name
    constructor
    · rintro h stem hstem rfl
      exact reduceRule_ne_of_two_suffixes hstem (h _ _)
    · intro h table survivors
      rw [reduceRule_eq_ruleOutcome, CategoryTable.treatment, CategoryTable.categoryOf,
        canonicalName_canonicalName h, CategoryTable.categoryOf]
  refine ⟨fun table survivors => reduceRule_eq_ruleOutcome table name survivors, hown name,
    fun hname => ?_⟩
  have hsuffixed := hown (name ++ "Context")
  simp only [CategoryTable.categoryOf, canonicalName_append hname] at hsuffixed
  rw [hsuffixed]
  refine forall_congr' fun stem => imp_congr_right fun _ => ?_
  rw [Ne, Ne, String.append_left_inj]

/-- A name with one suffix is treated by the entry of the name without it. -/
theorem reduceRule_treatment_function :
    "Function_" ≠ "" ∧
      reduceRule (CategoryTable.wrapperOnly "Function_") ("Function_" ++ "Context") [.leaf "x"] =
        ruleOutcome (some .wrapper) "Function_" [.leaf "x"] := by
  have hname : "Function_" ≠ "" := by decide
  have hplain : ∀ stem, stem ≠ "" → "Function_" ≠ stem ++ "Context" := by
    intro stem _ h
    have hlast := congrArg (fun s => s.toList.getLast?) h
    simp at hlast
  obtain ⟨-, -, hsuffixed⟩ := reduceRule_treatment_iff "Function_"
  exact ⟨hname, (hsuffixed hname).mpr hplain _ _⟩

/-- A name with two suffixes has the category of a wrapper, and yet a rule of that name with one
child left does not give way to it. -/
theorem reduce_of_two_suffixes :
    let table := CategoryTable.wrapperOnly "ItemContext"
    table.categoryOf "ItemContextContext" = some .wrapper ∧
      reduce table (.rule "ItemContextContext" [.leaf ⟨"x", none⟩]) =
        .rule "ItemContext" [.leaf "x"] ∧
      reduce table (.rule "ItemContextContext" [.leaf ⟨"x", none⟩]) ≠ .leaf "x" := by
  intro table
  have hcategory : table.categoryOf "ItemContextContext" = some .wrapper := by decide +kernel
  have htreatment : table.treatment "ItemContextContext" = none := by decide +kernel
  have hlabel : canonicalName "ItemContextContext" = "ItemContext" := by decide +kernel
  have hchildren : reduceChildren table [.leaf ⟨"x", none⟩] = [.leaf "x"] := by
    rw [reduceChildren_cons, reduceNode, reduceLeaf, if_neg (by decide), reduceChildren]
    rfl
  have hreduce : reduce table (.rule "ItemContextContext" [.leaf ⟨"x", none⟩]) =
      .rule "ItemContext" [.leaf "x"] := by
    rw [reduce_eq_getD, reduceNode, hchildren, reduceRule_eq_ruleOutcome, htreatment, hlabel]
    rfl
  refine ⟨hcategory, hreduce, ?_⟩
  rw [hreduce]
  intro h
  cases h

end CrateAnalysis
