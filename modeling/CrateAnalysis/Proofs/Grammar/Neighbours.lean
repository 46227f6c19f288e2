import CrateAnalysis.Proofs.Grammar.Crate
import CrateAnalysis.Proofs.Grammar.Expansion
import Mathlib.Data.List.Chain
import Mathlib.Data.List.TakeWhile

/-!
# What stands beside what

Two properties of all words of a grammar are read off its productions. `Grammar.sheltered` checks
that only certain terminals occur before a guard: as long as no guard has come, each production
lists such terminals and nonterminals that are checked as well. `Grammar.Apart` lists the symbols
whose words can begin with a terminal and those whose words can end with it; if no production has
one of the latter before one of the former, then that terminal never stands beside itself.
-/

set_option autoImplicit false

namespace CrateAnalysis

namespace Grammar

variable {T N : Type} {g : Grammar T N}

/-! ## Terminals before a guard -/

section Sheltered

variable [DecidableEq N] (guard allowed : T → Bool) (family : List N)

/-- Up to the first guard, if there is one, some symbols are allowed terminals and nonterminals of
a family. -/
def sheltered : List (Symbol T N) → Bool
  | [] => true
  | .terminal t :: symbols => guard t || allowed t && sheltered symbols
  | .nonterminal n :: symbols => decide (n ∈ family) && sheltered symbols

variable {guard allowed family}

/-- If the productions of a family are sheltered, so is every word: up to its first guard it
consists of allowed terminals. -/
theorem Derives.allowed_of_sheltered
    (hfamily : ∀ n ∈ family, ∀ p ∈ g.alternatives n, sheltered guard allowed family p.rhs)
    {symbols : List (Symbol T N)} {word : List T} (h : g.Derives symbols word)
    (hsheltered : sheltered guard allowed family symbols) :
    ∀ t ∈ word.takeWhile (fun t => !guard t), allowed t := by
  induction h with
  | nil => simp
  | @terminal t symbols word _ ih =>
    rw [sheltered] at hsheltered
    rw [List.takeWhile_cons]
    cases hguard : guard t with
    | true => simp
    | false =>
      rw [hguard, Bool.false_or, Bool.and_eq_true] at hsheltered
      rw [Bool.not_false, if_pos rfl, List.forall_mem_cons]
      exact ⟨hsheltered.1, ih hsheltered.2⟩
  | @nonterminal n p symbols u v hp _ _ ihinner ih =>
    rw [sheltered, Bool.and_eq_true, decide_eq_true_eq] at hsheltered
    have hu := ihinner (hfamily n hsheltered.1 p hp)
    rw [List.takeWhile_append]
    split
    next hall =>
      rw [(List.takeWhile_prefix _).eq_of_length hall] at hu
      exact List.forall_mem_append.mpr ⟨hu, ih hsheltered.2⟩
    next => exact hu

end Sheltered

/-! ## A terminal that never stands beside itself -/

/-- Of no terminal and no nonterminal outside `begins` does a word begin with `t`, and of none
outside `ends` does a word end with it; nowhere in a production does one of `begins` come after one
of `ends`. -/
structure Apart (g : Grammar T N) (t : T) (begins ends : List (Symbol T N)) : Prop where
  begins_self : .terminal t ∈ begins
  ends_self : .terminal t ∈ ends
  begins_of_head : ∀ p ∈ g.productions, ∀ symbol ∈ p.rhs.head?, symbol ∈ begins →
    .nonterminal p.lhs ∈ begins
  ends_of_last : ∀ p ∈ g.productions, ∀ symbol ∈ p.rhs.getLast?, symbol ∈ ends →
    .nonterminal p.lhs ∈ ends
  isChain : ∀ p ∈ g.productions,
    p.rhs.IsChain fun symbol next => symbol ∈ ends → next ∉ begins

section Apart

variable {t : T} {begins ends : List (Symbol T N)}

/-- Where no symbol of `begins` comes after one of `ends`, a word has `t` nowhere beside itself, and
only the outer symbols can put it at the ends of the word. -/
theorem Apart.derives (hg : g.WellFormed) (hapart : g.Apart t begins ends)
    {symbols : List (Symbol T N)} {word : List T} (h : g.Derives symbols word)
    (hoccur : ∀ symbol ∈ symbols, ∃ p ∈ g.productions, symbol ∈ p.rhs)
    (hchain : symbols.IsChain fun symbol next => symbol ∈ ends → next ∉ begins) :
    word.IsChain (fun a b => a = t → b ≠ t) ∧
      (t ∈ word.head? → ∃ symbol ∈ symbols.head?, symbol ∈ begins) ∧
      (t ∈ word.getLast? → ∃ symbol ∈ symbols.getLast?, symbol ∈ ends) := by
  induction h with
  | nil => simp
  | @terminal a symbols word h ih =>
    obtain ⟨-, hoccur⟩ := List.forall_mem_cons.mp hoccur
    rw [List.isChain_cons] at hchain
    obtain ⟨ihchain, ihhead, ihlast⟩ := ih hoccur hchain.2
    refine ⟨?_, ?_, ?_⟩
    · rw [List.isChain_cons]
      refine ⟨?_, ihchain⟩
      rintro b hb rfl rfl
      obtain ⟨symbol, hsymbol, hbegins⟩ := ihhead hb
      exact hchain.1 symbol hsymbol hapart.ends_self hbegins
    · intro ha
      obtain rfl := Option.some.inj ha
      exact ⟨_, rfl, hapart.begins_self⟩
    · intro hlast
      cases symbols with
      | nil =>
        cases h
        obtain rfl := Option.some.inj hlast
        exact ⟨_, rfl, hapart.ends_self⟩
      | cons next symbols =>
        have hne := hg.ne_nil_of_derives h (List.cons_ne_nil _ _) hoccur
        rw [List.getLast?_cons_of_ne_nil hne] at hlast
        exact ihlast hlast
  | @nonterminal n p symbols u v hp hrhs h ihinner ih =>
    obtain ⟨⟨q, hq, hn⟩, hsymbols⟩ := List.forall_mem_cons.mp hoccur
    obtain ⟨hmem, rfl⟩ := hg.mem_productions hq hn hp
    rw [List.isChain_cons] at hchain
    obtain ⟨innerChain, innerHead, innerLast⟩ :=
      ihinner (fun symbol hsymbol => ⟨p, hmem, hsymbol⟩) (hapart.isChain p hmem)
    obtain ⟨ihchain, ihhead, ihlast⟩ := ih hsymbols hchain.2
    have hbegins : t ∈ u.head? → .nonterminal p.lhs ∈ begins := by
      intro hu
      obtain ⟨symbol, hsymbol, hbegins⟩ := innerHead hu
      exact hapart.begins_of_head p hmem symbol hsymbol hbegins
    have hends : t ∈ u.getLast? → .nonterminal p.lhs ∈ ends := by
      intro hu
      obtain ⟨symbol, hsymbol, hends⟩ := innerLast hu
      exact hapart.ends_of_last p hmem symbol hsymbol hends
    have hne : u ≠ [] := by
      apply hg.ne_nil_of_derives (derives_nonterminal_iff.mpr ⟨p, hp, hrhs⟩)
        (List.cons_ne_nil _ _)
      intro symbol hsymbol
      rw [List.mem_singleton.mp hsymbol]
      exact ⟨q, hq, hn⟩
    refine ⟨?_, ?_, ?_⟩
    · rw [List.isChain_append]
      refine ⟨innerChain, ihchain, ?_⟩
      rintro a ha b hb rfl rfl
      obtain ⟨symbol, hsymbol, hnext⟩ := ihhead hb
      exact hchain.1 symbol hsymbol (hends ha) hnext
    · intro hhead
      rw [List.head?_append_of_ne_nil _ hne] at hhead
      exact ⟨_, rfl, hbegins hhead⟩
    · intro hlast
      cases symbols with
      | nil =>
        cases h
        rw [List.append_nil] at hlast
        exact ⟨_, rfl, hends hlast⟩
      | cons next symbols =>
        have hlater := hg.ne_nil_of_derives h (List.cons_ne_nil _ _) hsymbols
        rw [List.getLast?_append_of_ne_nil _ hlater] at hlast
        exact ihlast hlast

end Apart

end Grammar

/-! ## Types -/

/-- The terminals of types without array lengths. -/
def typeTerminals : List Terminal :=
  [.identifier, .kwMut, .pathSeparator, .less, .greater, .comma, .ampersand, .leftParen,
    .rightParen, .leftBracket, .rightBracket]

/-- What types are made of. -/
def typeFamily : List Nonterminal :=
  [.rule .typeExpression, .rule .referenceType, .rule .pathType, .rule .genericArgs,
    .rule .tupleType, .rule .arrayType, .rule .path,
    .many [.terminal .comma, .rule .typeExpression],
    .many [.terminal .pathSeparator, .terminal .identifier]]

section Types

variable {word : List Terminal}

/-- A type without a semicolon, and so without an array length, consists of terminals of types. -/
theorem mem_typeTerminals (h : Derivation [.rule .typeExpression] word)
    (hlength : .semicolon ∉ word) : ∀ t ∈ word, t ∈ typeTerminals := by
  have hfamily : ∀ n ∈ typeFamily, ∀ p ∈ crateGrammar.alternatives n,
      Grammar.sheltered (· = Terminal.semicolon) (· ∈ typeTerminals) typeFamily p.rhs := by
    decide +kernel
  have hallowed := h.derives.allowed_of_sheltered hfamily (by decide)
  have hwhole : word.takeWhile (fun t => !decide (t = .semicolon)) = word := by
    rw [List.takeWhile_eq_self_iff]
    intro t ht
    have hne : t ≠ .semicolon := fun heq => hlength (heq ▸ ht)
    simpa using hne
  rw [hwhole] at hallowed
  intro t ht
  exact of_decide_eq_true (hallowed t ht)

/-- In the grammar of a crate an opening angle bracket never follows another one, nor does the same
sign as a comparison. -/
theorem apart_less : crateGrammar.Apart .less
    [.terminal .less, .nonterminal (.rule .genericArgs), .nonterminal (.rule .genericParams),
      .nonterminal (.rule .comparisonOperator)]
    [.terminal .less, .nonterminal (.rule .comparisonOperator)] where
  begins_self := by decide
  ends_self := by decide
  begins_of_head := by decide +kernel
  ends_of_last := by decide +kernel
  isChain := by decide +kernel

/-- No type has two angle brackets that open in a row. -/
theorem isChain_less (h : Derivation [.rule .typeExpression] word) :
    word.IsChain fun a b => a = .less → b ≠ .less := by
  have hoccur : ∃ p ∈ crateGrammar.productions,
      .nonterminal (.rule .typeExpression) ∈ p.rhs := by
    decide +kernel
  have hsymbols : ∀ symbol ∈ [Atom.rule .typeExpression].map Atom.symbol,
      ∃ p ∈ crateGrammar.productions, symbol ∈ p.rhs := by
    intro symbol hsymbol
    rw [List.mem_singleton.mp hsymbol]
    exact hoccur
  exact (apart_less.derives wellFormed_crateGrammar h.derives hsymbols (.singleton _)).1

end Types

/-! ## Before the first block -/

/-- What a crate is made of before its first block, initial value or array length. -/
def headFamily : List Nonterminal :=
  typeFamily ++
    [.rule .crate, .many [.rule .item], .rule .item, .rule .functionDeclaration,
      .rule .structDeclaration, .rule .enumDeclaration, .rule .implDeclaration,
      .rule .traitDeclaration, .rule .useDeclaration, .rule .constantDeclaration,
      .rule .visibility, .rule .functionParameters, .rule .functionParameter,
      .many [.terminal .comma, .rule .functionParameter], .rule .selfParameter,
      .rule .functionReturnType, .rule .genericParams, .rule .genericParam,
      .many [.terminal .comma, .rule .genericParam], .rule .traitBound,
      .many [.terminal .plus, .rule .traitBound], .rule .structFields, .rule .tupleFields,
      .rule .tupleField, .many [.terminal .comma, .rule .tupleField], .rule .blockExpression,
      .rule .pattern, .rule .identifierPattern, .rule .wildcardPattern, .rule .literalPattern,
      .rule .referencePattern, .rule .tuplePattern, .rule .tupleStructPattern,
      .rule .qualifiedPathPattern, .many [.terminal .comma, .rule .pattern]]

/-- Expressions come after a brace, an equals sign or a semicolon only. So no crate has an operator
of two signs that are also written in types before the first of these. -/
theorem not_fused_of_isCrate {word : List Terminal} (h : IsCrate word) :
    ∀ t ∈ word.takeWhile (fun t => !decide (t ∈ [Terminal.leftBrace, .equal, .semicolon])),
      t ∉ [Terminal.shiftRight, .andAnd] := by
  have hfamily : ∀ n ∈ headFamily, ∀ p ∈ crateGrammar.alternatives n,
      Grammar.sheltered (· ∈ [Terminal.leftBrace, .equal, .semicolon])
        (· ∉ [Terminal.shiftRight, .andAnd]) headFamily p.rhs := by
    decide +kernel
  intro t ht
  exact of_decide_eq_true (h.derives.allowed_of_sheltered hfamily (by decide) t ht)

end CrateAnalysis
