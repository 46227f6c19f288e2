import CrateAnalysis.Grammar.Crate
import CrateAnalysis.Proofs.Grammar.Derivations

/-!
# The grammar of a crate is well-formed

The nonterminals of the grammar of a crate are its rules and all that the rules repeat, so what
a production refers to is always among them; this and the numbering of the alternatives follow
from how the grammar is made of its rules. That every nonterminal derives some word is found by
passes over the grammar. Only a crate may be empty, and it is not a part of anything. The levels
of expressions pass to one another in one direction only, and `unitRank` counts them.
-/

set_option autoImplicit false

namespace CrateAnalysis

namespace Grammar

variable {T N : Type} [DecidableEq N] {g : Grammar T N}

/-- All the nonterminals of some symbols are known. -/
def covered (known : List N) (symbols : List (Symbol T N)) : Bool :=
  symbols.all fun
    | .terminal _ => true
    | .nonterminal n => decide (n ∈ known)

/-- One pass over some nonterminals: each that has an alternative in which all nonterminals are
known becomes known itself. -/
def learn (g : Grammar T N) (ns known : List N) : List N :=
  ns.foldr (fun n known =>
    if n ∈ known then known
    else if (g.alternatives n).any fun p => covered known p.rhs then n :: known
    else known) known

/-- If all that is known derives some word, then so do symbols that are covered by it. -/
theorem exists_derives_of_covered {known : List N}
    (hknown : ∀ n ∈ known, ∃ word, g.Derives [.nonterminal n] word)
    {symbols : List (Symbol T N)} (h : covered known symbols = true) :
    ∃ word, g.Derives symbols word := by
  induction symbols with
  | nil => exact ⟨[], .nil⟩
  | cons symbol symbols ih =>
    rw [covered, List.all_cons, Bool.and_eq_true] at h
    obtain ⟨hfirst, hrest⟩ := h
    obtain ⟨v, hv⟩ := ih hrest
    cases symbol with
    | terminal t => exact ⟨t :: v, .terminal hv⟩
    | nonterminal n =>
      obtain ⟨u, hu⟩ := hknown n (of_decide_eq_true hfirst)
      exact ⟨u ++ v, hu.append hv⟩

/-- A pass keeps that all that is known derives some word. -/
theorem exists_derives_of_mem_learn {ns known : List N}
    (hknown : ∀ n ∈ known, ∃ word, g.Derives [.nonterminal n] word) :
    ∀ n ∈ g.learn ns known, ∃ word, g.Derives [.nonterminal n] word := by
  induction ns with
  | nil => exact hknown
  | cons n ns ih =>
    rw [learn, List.foldr_cons, ← learn]
    split
    · exact ih
    · split
      next hany =>
        obtain ⟨p, hp, hcovered⟩ := List.any_eq_true.mp hany
        obtain ⟨word, hword⟩ := exists_derives_of_covered ih hcovered
        exact List.forall_mem_cons.mpr ⟨⟨word, derives_nonterminal_iff.mpr ⟨p, hp, hword⟩⟩, ih⟩
      next => exact ih

end Grammar

/-! ## What the grammar is made of -/

/-- The list of rules is complete. -/
theorem RuleName.mem_all (r : RuleName) : r ∈ all := by
  cases r <;> decide

/-- What occurs as a repetition in a plain sequence of a body is repeated in the body. -/
theorem Body.mem_repetitions {body : Body} {symbols : List (Symbol Terminal Nonterminal)}
    {unit : List Atom} (hsymbols : symbols ∈ body.sequences)
    (hunit : .nonterminal (.many unit) ∈ symbols) : unit ∈ body.repetitions := by
  induction body generalizing symbols with
  | empty | token | rule =>
    obtain rfl := List.mem_singleton.mp hsymbols
    simp at hunit
  | nothing => cases hsymbols
  | many unit' =>
    simp only [sequences, List.mem_cons, List.not_mem_nil, or_false] at hsymbols
    rcases hsymbols with rfl | rfl
    · simpa [repetitions] using hunit
    · cases hunit
  | next first second ihfirst ihsecond =>
    obtain ⟨x, hx, hmem⟩ := List.mem_flatMap.mp hsymbols
    obtain ⟨y, hy, rfl⟩ := List.mem_map.mp hmem
    rcases List.mem_append.mp hunit with hunit | hunit
    · exact List.mem_append_left _ (ihfirst hx hunit)
    · exact List.mem_append_right _ (ihsecond hy hunit)
  | either left right ihleft ihright =>
    rcases List.mem_append.mp hsymbols with hmem | hmem
    · exact List.mem_append_left _ (ihleft hmem hunit)
    · exact List.mem_append_right _ (ihright hmem hunit)
  | optional part ih =>
    rcases List.mem_append.mp hsymbols with hmem | hmem
    · exact ih hmem hunit
    · obtain rfl := List.mem_singleton.mp hmem
      cases hunit

/-- Every rule is a nonterminal of the grammar. -/
theorem rule_mem_nonterminals (r : RuleName) : .rule r ∈ crateGrammar.nonterminals :=
  List.mem_append_left _ (List.mem_map_of_mem r.mem_all)

/-- A repetition is a nonterminal just if some body repeats the unit. -/
theorem many_mem_nonterminals_iff {unit : List Atom} :
    .many unit ∈ crateGrammar.nonterminals ↔ unit ∈ repetitions := by
  simp [crateGrammar]

/-- What is repeated in a choice of some rule is repeated in the grammar. -/
theorem mem_repetitions_of_choice {r : RuleName} {choice : Choice} (hchoice : choice ∈ choices r)
    {unit : List Atom} (hunit : unit ∈ choice.body.repetitions) : unit ∈ repetitions :=
  List.mem_eraseDups.mpr (List.mem_flatMap.mpr
    ⟨r, r.mem_all, List.mem_flatMap.mpr ⟨choice, hchoice, hunit⟩⟩)

/-- The alternatives of a nonterminal are productions of it. -/
theorem lhs_of_mem_alternatives {n : Nonterminal} {p : Production Terminal Nonterminal}
    (hp : p ∈ alternatives n) : p.lhs = n := by
  cases n with
  | rule r =>
    obtain ⟨i, hi, rfl⟩ := List.mem_mapIdx.mp hp
    rfl
  | many unit =>
    rcases List.mem_cons.mp hp with rfl | hp
    · rfl
    · obtain rfl := List.mem_singleton.mp hp
      rfl

/-- The alternatives are numbered in their order. -/
theorem map_number_alternatives (n : Nonterminal) :
    (alternatives n).map (·.number) = List.range (alternatives n).length := by
  cases n with
  | rule r =>
    apply List.ext_getElem
    · simp
    · intro i hi hi'
      simp [alternatives]
  | many unit => rfl

/-- What a list of terminals and rules refers to is a nonterminal of the grammar. -/
theorem mem_nonterminals_of_symbols {unit : List Atom} {n : Nonterminal}
    (h : .nonterminal n ∈ unit.map Atom.symbol) : n ∈ crateGrammar.nonterminals := by
  obtain ⟨atom, -, heq⟩ := List.mem_map.mp h
  cases atom with
  | terminal t => cases heq
  | rule r =>
    cases heq
    exact rule_mem_nonterminals r

/-- What a production refers to is a nonterminal of the grammar. -/
theorem mem_nonterminals_of_mem_rhs {n m : Nonterminal} (hn : n ∈ crateGrammar.nonterminals)
    {p : Production Terminal Nonterminal} (hp : p ∈ alternatives n)
    (hm : .nonterminal m ∈ p.rhs) : m ∈ crateGrammar.nonterminals := by
  cases n with
  | rule r =>
    cases m with
    | rule s => exact rule_mem_nonterminals s
    | many unit =>
      obtain ⟨i, hi, rfl⟩ := List.mem_mapIdx.mp hp
      obtain ⟨choice, hchoice, hmem⟩ := List.mem_flatMap.mp (List.getElem_mem hi)
      obtain ⟨symbols, hsymbols, heq⟩ := List.mem_map.mp hmem
      rw [← heq] at hm
      exact many_mem_nonterminals_iff.mpr
        (mem_repetitions_of_choice hchoice (Body.mem_repetitions hsymbols hm))
  | many unit =>
    rcases List.mem_cons.mp hp with rfl | hp
    · exact mem_nonterminals_of_symbols hm
    · obtain rfl := List.mem_singleton.mp hp
      rcases List.mem_cons.mp hm with heq | hm
      · cases heq
        exact hn
      · exact mem_nonterminals_of_symbols hm

/-! ## What only the rules themselves can show -/

/-- Three passes over the grammar reach every nonterminal. -/
theorem subset_learn :
    ∀ n ∈ crateGrammar.nonterminals, n ∈
      crateGrammar.learn crateGrammar.nonterminals
        (crateGrammar.learn crateGrammar.nonterminals
          (crateGrammar.learn crateGrammar.nonterminals [])) := by
  decide +kernel

/-- Only a crate has an alternative without symbols. -/
theorem lhs_of_rhs_nil :
    ∀ p ∈ crateGrammar.productions, p.rhs = [] → p.lhs = .rule .crate := by
  decide +kernel

/-- A crate is not a part of anything. -/
theorem crate_not_mem_rhs :
    ∀ p ∈ crateGrammar.productions, .nonterminal (.rule .crate) ∉ p.rhs := by
  decide +kernel

/-- The grammar of a crate is as the chart demands. -/
theorem wellFormed_crateGrammar : crateGrammar.WellFormed where
  start_mem := rule_mem_nonterminals .crate
  lhs_eq := fun _ _ _ hp => lhs_of_mem_alternatives hp
  nodup_number := fun n _ => by
    rw [show crateGrammar.alternatives n = alternatives n from rfl, map_number_alternatives]
    exact List.nodup_range
  mem_of_mem_rhs := by
    intro p hp m hm
    obtain ⟨n, hn, hp⟩ := List.mem_flatMap.mp hp
    exact mem_nonterminals_of_mem_rhs hn hp hm
  unused_of_rhs_nil := by
    intro p hp hnil q hq
    rw [lhs_of_rhs_nil p hp hnil]
    exact crate_not_mem_rhs q hq
  productive := fun n hn =>
    Grammar.exists_derives_of_mem_learn
      (Grammar.exists_derives_of_mem_learn (Grammar.exists_derives_of_mem_learn (by simp)))
      n (subset_learn n hn)

/-! ## Passing from rule to rule -/

/-- The rules with a choice that is one other rule, each before those that it passes to. -/
def passing : List RuleName :=
  [.statement, .expressionStatement, .expression, .assignmentExpression, .rangeExpression,
    .logicalOrExpression, .logicalAndExpression, .comparisonExpression, .bitwiseOrExpression,
    .bitwiseXorExpression, .bitwiseAndExpression, .shiftExpression, .additiveExpression,
    .multiplicativeExpression, .castExpression, .unaryExpression, .postfixExpression,
    .primaryExpression, .blockLikeExpression, .pathExpression, .pattern, .functionParameters,
    .functionParameter, .item, .traitBound, .tupleField, .typeExpression, .pathType]

/-- The rank of a nonterminal: the more rules it can pass to one after another, the higher. -/
def unitRank : Nonterminal → Nat
  | .rule .crate => passing.length + 2
  | .many _ => passing.length + 1
  | .rule name => passing.length - passing.idxOf name

/-- No rank is above that of a crate. -/
theorem unitRank_le (n : Nonterminal) : unitRank n ≤ passing.length + 2 := by
  unfold unitRank
  split <;> omega

/-- The rank falls along the production, if it passes to one nonterminal. -/
def Production.descends (p : Production Terminal Nonterminal) : Bool :=
  match p.rhs with
  | [.nonterminal n] => decide (unitRank n < unitRank p.lhs)
  | _ => true

/-- The rank falls along every production that passes to one nonterminal. -/
theorem descends_of_mem : ∀ p ∈ crateGrammar.productions, p.descends = true := by
  decide +kernel

/-- There are more places for the dot than ranks. -/
theorem passing_length_lt_dotCount : passing.length + 2 < crateGrammar.dotCount := by
  decide +kernel

/-- The rank falls wherever the grammar of a crate passes to one nonterminal. -/
theorem unitRank_crateGrammar : crateGrammar.UnitRank unitRank where
  lt_of_unit := by
    intro p hp n hunit
    have hdescends := descends_of_mem p hp
    rw [Production.descends, hunit] at hdescends
    exact of_decide_eq_true hdescends
  lt_dotCount := fun n _ => Nat.lt_of_le_of_lt (unitRank_le n) passing_length_lt_dotCount

end CrateAnalysis
