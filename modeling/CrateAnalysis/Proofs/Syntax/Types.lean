import CrateAnalysis.Proofs.Syntax.Compact
import CrateAnalysis.Proofs.Syntax.Layout
import CrateAnalysis.Proofs.Syntax.Parse

/-!
# Types as the type of a parameter

Spaced out, every type is accepted as the type of a parameter. Written without spaces it is read as
`munch` says, and the operators that are made of two signs can occur in expressions only, of which
there are none before the body of a function. So a type that closes two lists of generic arguments
at once, or refers to a reference, is refused without spaces, and every other type has the same tree
in both ways of writing it.
-/

set_option autoImplicit false

namespace CrateAnalysis

/-! ## Parsing what is read -/

namespace ReadsAs

variable {code other : String} {shapes : List (Terminal × List Char)}

/-- A text that is read as some tokens has no lexical diagnostic, and no other one exactly if the
terminals of the tokens are a crate. -/
theorem diagnostics_eq_nil_iff (h : ReadsAs code.toList shapes) :
    (tokenize code).diagnostics = [] ∧
      ((parse code).diagnostics = [] ↔ IsCrate (shapes.map Prod.fst)) := by
  obtain ⟨lexemes, hstretch, rfl⟩ := h .start .start
  refine ⟨(CrateAnalysis.diagnostics_eq_nil_iff hstretch).mpr rfl, ?_⟩
  rw [diagnostics_parse_eq_nil_iff hstretch, List.map_map]
  rfl

/-- Texts that are read as the same tokens have the same tree. -/
theorem tree_eq (h : ReadsAs code.toList shapes) (hother : ReadsAs other.toList shapes) :
    (parse code).tree = (parse other).tree := by
  obtain ⟨lexemes, hcode, hshapes⟩ := h .start .start
  obtain ⟨others, hothers, hsame⟩ := hother .start .start
  have hequal : lexemes.map Lexeme.shape = others.map Lexeme.shape := hshapes.trans hsame.symm
  have htokens : (tokenize code).tokens.map Token.shape =
      (tokenize other).tokens.map Token.shape := by
    rw [tokenize_of_none hcode, tokenize_of_none hothers]
    simp only [List.map_append, map_tokenShape_eq hequal]
    rfl
  exact (parse_congr hcode hothers hequal htokens).1

end ReadsAs

/-! ## A parameter of a type -/

/-- A function with one parameter, whose type is given as it is written. -/
def declaration (type : List Char) : String :=
  String.ofList ("fn f(x: ".toList ++ type ++ ") \x7b\x7d".toList)

/-- The tokens before the type. -/
def openingTokens : List (Terminal × List Char) :=
  [(.kwFn, "fn".toList), (.identifier, "f".toList), (.leftParen, "(".toList),
    (.identifier, "x".toList), (.colon, ":".toList)]

/-- The tokens after the type. -/
def closingTokens : List (Terminal × List Char) :=
  [(.rightParen, ")".toList), (.leftBrace, "\x7b".toList), (.rightBrace, "\x7d".toList)]

/-- What stands after the type is read as the tokens after it. -/
theorem readsAs_closing : ReadsAs ") \x7b\x7d".toList closingTokens := by
  have hrightBrace : ReadsAs ("\x7d".toList ++ []) [(.rightBrace, "\x7d".toList)] :=
    ReadsAs.nil.operator (by decide) rfl (by decide) nofun
  have hleftBrace : ReadsAs ("\x7b".toList ++ ['\x7d'])
      [(.leftBrace, "\x7b".toList), (.rightBrace, "\x7d".toList)] :=
    hrightBrace.operator (by decide) rfl (by decide) (by rintro c ⟨⟩; rfl)
  have hparen : ReadsAs (")".toList ++ [' ', '\x7b', '\x7d']) closingTokens :=
    (hleftBrace.blank rfl).operator (by decide) rfl (by decide) (by rintro c ⟨⟩; rfl)
  exact hparen

/-- What stands before the type is read as the tokens before it, for a space ends it. -/
theorem readsAs_opening {rest : List Char} {shapes : List (Terminal × List Char)}
    (hrest : ReadsAs rest shapes) :
    ReadsAs ("fn f(x: ".toList ++ rest) (openingTokens ++ shapes) := by
  have hcolon : ReadsAs (":".toList ++ ' ' :: rest) ((.colon, ":".toList) :: shapes) :=
    (hrest.blank rfl).operator (by decide) rfl (by decide) (by rintro c ⟨⟩; rfl)
  have hname : ReadsAs ("x".toList ++ ':' :: ' ' :: rest)
      ((.identifier, "x".toList) :: (.colon, ":".toList) :: shapes) :=
    hcolon.word (by decide +kernel) (by decide +kernel) (by rintro c ⟨⟩; rfl)
  have hparen : ReadsAs ("(".toList ++ 'x' :: ':' :: ' ' :: rest)
      ((.leftParen, "(".toList) :: (.identifier, "x".toList) :: (.colon, ":".toList) :: shapes) :=
    hname.operator (by decide) rfl (by decide) (by rintro c ⟨⟩; rfl)
  have hfunction : ReadsAs ("f".toList ++ '(' :: 'x' :: ':' :: ' ' :: rest)
      ((.identifier, "f".toList) :: (.leftParen, "(".toList) :: (.identifier, "x".toList) ::
        (.colon, ":".toList) :: shapes) :=
    hparen.word (by decide +kernel) (by decide +kernel) (by rintro c ⟨⟩; rfl)
  have hkeyword : ReadsAs ("fn".toList ++ ' ' :: 'f' :: '(' :: 'x' :: ':' :: ' ' :: rest)
      (openingTokens ++ shapes) :=
    (hfunction.blank rfl).word (by decide +kernel) (by decide +kernel) (by rintro c ⟨⟩; rfl)
  exact hkeyword

/-- A declaration is read as its type is, between the tokens around it. -/
theorem readsAs_declaration {type : List Char} {shapes : List (Terminal × List Char)}
    (h : ∀ rest later, rest.head? = some ')' → ReadsAs rest later →
      ReadsAs (type ++ rest) (shapes ++ later)) :
    ReadsAs (declaration type).toList (openingTokens ++ (shapes ++ closingTokens)) := by
  have htype : ReadsAs (type ++ ") \x7b\x7d".toList) (shapes ++ closingTokens) :=
    h _ _ (by decide) readsAs_closing
  unfold declaration
  rw [String.toList_ofList, List.append_assoc]
  exact readsAs_opening htype

/-! ## The grammar of the declaration -/

section Declaration

variable {word : List Terminal}

/-- With a type between them the tokens of the declaration are a crate. -/
theorem isCrate_of_type (h : Derivation [.rule .typeExpression] word) :
    IsCrate (openingTokens.map Prod.fst ++ (word ++ closingTokens.map Prod.fst)) := by
  have htype : crateGrammar.Derives [.nonterminal (.rule .typeExpression)] word := h.derives
  have hidentifier : crateGrammar.Derives [.nonterminal (.rule .identifierPattern)] [.identifier] :=
    (Grammar.Derives.terminal .nil).of_rhs (by decide +kernel)
  have hpattern : crateGrammar.Derives [.nonterminal (.rule .pattern)] [.identifier] :=
    hidentifier.of_rhs (by decide +kernel)
  have hparameter : crateGrammar.Derives [.nonterminal (.rule .functionParameter)]
      (.identifier :: .colon :: word) :=
    (hpattern.append (.terminal htype)).of_rhs (by decide +kernel)
  have hparameters : crateGrammar.Derives [.nonterminal (.rule .functionParameters)]
      (.identifier :: .colon :: word) :=
    hparameter.of_rhs (by decide +kernel)
  have hblock : crateGrammar.Derives [.nonterminal (.rule .blockExpression)]
      [.leftBrace, .rightBrace] :=
    (Grammar.Derives.terminal (.terminal .nil)).of_rhs (by decide +kernel)
  have hfunction : crateGrammar.Derives [.nonterminal (.rule .functionDeclaration)]
      (.kwFn :: .identifier :: .leftParen ::
        ((.identifier :: .colon :: word) ++ (.rightParen :: [.leftBrace, .rightBrace]))) :=
    (Grammar.Derives.terminal (.terminal (.terminal
      (hparameters.append (.terminal hblock))))).of_rhs (by decide +kernel)
  have hitem := hfunction.of_rhs (show ∃ p ∈ crateGrammar.alternatives (.rule .item), p.rhs = _ by
    decide +kernel)
  have hitems := hitem.of_rhs
    (show ∃ p ∈ crateGrammar.alternatives (.many [.rule .item]), p.rhs = _ by decide +kernel)
  rw [← generates_iff_isCrate]
  exact hitems.of_rhs (show ∃ p ∈ crateGrammar.alternatives (.rule .crate), p.rhs = _ by
    decide +kernel)

/-- No crate begins with the tokens before a type and goes on with an operator made of two signs,
unless a block, a value or an array length comes first. -/
theorem not_isCrate_of_fused (hguard : ∀ t ∈ word, t ∉ [Terminal.leftBrace, .equal, .semicolon])
    {fused : Terminal} (hfused : fused ∈ [Terminal.shiftRight, .andAnd]) (hmem : fused ∈ word) :
    ¬ IsCrate (openingTokens.map Prod.fst ++ (word ++ closingTokens.map Prod.fst)) := by
  intro hcrate
  apply not_fused_of_isCrate hcrate fused _ hfused
  rw [← List.append_assoc, List.takeWhile_append_of_pos]
  · exact List.mem_append_left _ (List.mem_append_right _ hmem)
  · intro t ht
    have hopening : ∀ t ∈ openingTokens.map Prod.fst,
        t ∉ [Terminal.leftBrace, .equal, .semicolon] := by
      decide
    have hnot : t ∉ [Terminal.leftBrace, .equal, .semicolon] :=
      (List.mem_append.mp ht).elim (hopening t) (hguard t)
    simpa using hnot

end Declaration

/-! ## When the spaces matter -/

section Types

variable {tokens : List WrittenToken}

/-- In a type only two closing brackets or two ampersands in a row make one operator. -/
theorem isChain_fuse? (htype : Derivation [.rule .typeExpression] (tokens.map (·.terminal)))
    (hgreater : ¬ [.greater, .greater] <:+: tokens.map (·.terminal))
    (hampersand : ¬ [.ampersand, .ampersand] <:+: tokens.map (·.terminal)) :
    (tokens.map (·.terminal)).IsChain fun terminal next => terminal.fuse? next = none := by
  have hless := isChain_less htype
  generalize tokens.map (·.terminal) = word at *
  rw [List.isChain_iff_forall_rel_of_append_cons_cons] at hless ⊢
  intro a b before after hword
  have hpair : [a, b] <:+: word := ⟨before, after, by simp [hword]⟩
  rw [Option.eq_none_iff_forall_ne_some]
  intro fused hfuse
  obtain ⟨rfl, hdoubled⟩ := fuse?_eq_some_iff.mp hfuse
  unfold Terminal.doubled? at hdoubled
  split at hdoubled
  · exact hless hword rfl rfl
  · exact hgreater hpair
  · exact hampersand hpair
  · cases hdoubled

/-- Written tokens are read as tokens of their terminals. -/
theorem map_fst_map_shape : (tokens.map WrittenToken.shape).map Prod.fst =
    tokens.map (·.terminal) := by
  rw [List.map_map]
  rfl

variable (htypes : ∀ token ∈ tokens, token.terminal ∈ typeTerminals)

include htypes

/-- With spaces around all of its tokens a type is read as it was written. -/
theorem readsAs_declaration_spaced : ReadsAs (declaration (spaced tokens)).toList
    (openingTokens ++ (tokens.map WrittenToken.shape ++ closingTokens)) :=
  readsAs_declaration fun _ _ => readsAs_spaced htypes

/-- Without spaces neighbours that fuse are read as one token. -/
theorem readsAs_declaration_compact : ReadsAs (declaration (compact tokens)).toList
    (openingTokens ++ (munch tokens ++ closingTokens)) :=
  readsAs_declaration fun _ _ => readsAs_compact htypes

/-- Spaced out, a type is accepted. -/
theorem spaced_type_accepted
    (htype : Derivation [.rule .typeExpression] (tokens.map (·.terminal))) :
    (parse (declaration (spaced tokens))).diagnostics = [] := by
  rw [(readsAs_declaration_spaced htypes).diagnostics_eq_nil_iff.2, List.map_append,
    List.map_append, map_fst_map_shape]
  exact isCrate_of_type htype

/-- Without spaces a type is refused in which one operator is made of two signs. -/
theorem compact_type_refused {terminal fused : Terminal}
    (hdoubled : terminal.doubled? = some fused) (hfused : fused ∈ [.shiftRight, .andAnd])
    (hpair : [terminal, terminal] <:+: tokens.map (·.terminal)) :
    (parse (declaration (compact tokens))).diagnostics ≠ [] := by
  intro haccepted
  rw [(readsAs_declaration_compact htypes).diagnostics_eq_nil_iff.2, List.map_append,
    List.map_append] at haccepted
  exact not_isCrate_of_fused (not_guard_of_mem_munch htypes) hfused
    (mem_munch_of_pair hdoubled hpair) haccepted

end Types

/-- A type without array lengths may be written without spaces unless two closing brackets or two
ampersands come in a row. Spaced out it is always accepted as the type of a parameter. Without
spaces the lexer has nothing to report either, and the parser accepts exactly the types in which
there is no such pair, with the same tree. -/
theorem compact_type_accepted_iff (tokens : List WrittenToken)
    (htype : Derivation [.rule .typeExpression] (tokens.map (·.terminal)))
    (hlength : .semicolon ∉ tokens.map (·.terminal)) :
    (tokenize (declaration (spaced tokens))).diagnostics = [] ∧
      (parse (declaration (spaced tokens))).diagnostics = [] ∧
      (tokenize (declaration (compact tokens))).diagnostics = [] ∧
      ((parse (declaration (compact tokens))).diagnostics = [] ↔
        ¬ [.greater, .greater] <:+: tokens.map (·.terminal) ∧
          ¬ [.ampersand, .ampersand] <:+: tokens.map (·.terminal)) ∧
      ((parse (declaration (compact tokens))).diagnostics = [] →
        (parse (declaration (compact tokens))).tree =
          (parse (declaration (spaced tokens))).tree) := by
  have htypes : ∀ token ∈ tokens, token.terminal ∈ typeTerminals := by
    intro token hmem
    exact mem_typeTerminals htype hlength _ (List.mem_map_of_mem hmem)
  have hspaced := readsAs_declaration_spaced htypes
  have hcompact := readsAs_declaration_compact htypes
  have hnoPair : (parse (declaration (compact tokens))).diagnostics = [] →
      ¬ [.greater, .greater] <:+: tokens.map (·.terminal) ∧
        ¬ [.ampersand, .ampersand] <:+: tokens.map (·.terminal) := by
    intro haccepted
    exact ⟨fun hpair => compact_type_refused htypes rfl (by decide) hpair haccepted,
      fun hpair => compact_type_refused htypes rfl (by decide) hpair haccepted⟩
  have hsame : ¬ [.greater, .greater] <:+: tokens.map (·.terminal) ∧
      ¬ [.ampersand, .ampersand] <:+: tokens.map (·.terminal) →
      munch tokens = tokens.map WrittenToken.shape := by
    intro hnone
    exact munch_eq_map_shape (isChain_fuse? htype hnone.1 hnone.2)
  refine ⟨hspaced.diagnostics_eq_nil_iff.1, spaced_type_accepted htypes htype,
    hcompact.diagnostics_eq_nil_iff.1, ⟨hnoPair, ?_⟩, ?_⟩
  · intro hnone
    rw [hcompact.diagnostics_eq_nil_iff.2, hsame hnone, List.map_append, List.map_append,
      map_fst_map_shape]
    exact isCrate_of_type htype
  · intro haccepted
    rw [hsame (hnoPair haccepted)] at hcompact
    exact hcompact.tree_eq hspaced

/-! ## Nested lists of generic arguments -/

namespace WrittenToken

/-- The name `A`. -/
def name : WrittenToken := ⟨.identifier, ['A'], .word, by decide +kernel, by decide +kernel⟩

/-- An opening angle bracket. -/
def opens : WrittenToken := ⟨.less, ['<'], .operator .less, by decide +kernel, rfl⟩

/-- A closing angle bracket. -/
def closes : WrittenToken := ⟨.greater, ['>'], .operator .greater, by decide +kernel, rfl⟩

end WrittenToken

/-- A name with one generic argument, which again is a name with one, down to some depth. -/
def nestedGenerics : Nat → List WrittenToken
  | 0 => [.name]
  | depth + 1 => .name :: .opens :: (nestedGenerics depth ++ [.closes])

/-- Nested generic types are types, however deep they are. -/
theorem derivation_nestedGenerics (depth : Nat) :
    Derivation [.rule .typeExpression] ((nestedGenerics depth).map (·.terminal)) := by
  rw [← derives_iff_derivation]
  have hpath : crateGrammar.Derives [.nonterminal (.rule .path)] [.identifier] :=
    (Grammar.Derives.terminal .nil).of_rhs (by decide +kernel)
  induction depth with
  | zero =>
    have htype : crateGrammar.Derives [.nonterminal (.rule .pathType)] [.identifier] :=
      hpath.of_rhs (by decide +kernel)
    exact htype.of_rhs (by decide +kernel)
  | succ depth ih =>
    have hargs : crateGrammar.Derives [.nonterminal (.rule .genericArgs)]
        (.less :: ((nestedGenerics depth).map (·.terminal) ++ [.greater])) :=
      (Grammar.Derives.terminal (ih.append (.terminal .nil))).of_rhs (by decide +kernel)
    have htype : crateGrammar.Derives [.nonterminal (.rule .pathType)]
        (.identifier :: .less :: ((nestedGenerics depth).map (·.terminal) ++ [.greater])) :=
      (hpath.append hargs).of_rhs (by decide +kernel)
    rw [nestedGenerics, List.map_cons, List.map_cons, List.map_append]
    exact htype.of_rhs (by decide +kernel)

/-- Nested generic types are made of terminals of types. -/
theorem mem_typeTerminals_nestedGenerics (depth : Nat) :
    ∀ token ∈ nestedGenerics depth, token.terminal ∈ typeTerminals := by
  induction depth with
  | zero =>
    rw [nestedGenerics, List.forall_mem_singleton]
    decide
  | succ depth ih =>
    rw [nestedGenerics, List.forall_mem_cons, List.forall_mem_cons, List.forall_mem_append,
      List.forall_mem_singleton]
    exact ⟨by decide, by decide, ih, by decide⟩

/-- Generic arguments are refused without spaces wherever they are nested. -/
theorem nestedGenerics_refused (depth : Nat) :
    (parse (declaration (compact (nestedGenerics (depth + 2))))).diagnostics ≠ [] := by
  apply compact_type_refused (mem_typeTerminals_nestedGenerics (depth + 2))
    (show Terminal.greater.doubled? = some .shiftRight from rfl) (by decide)
  apply List.IsSuffix.isInfix
  refine ⟨.identifier :: .less :: .identifier :: .less ::
    (nestedGenerics depth).map (·.terminal), ?_⟩
  simp [nestedGenerics, WrittenToken.name, WrittenToken.opens, WrittenToken.closes]

/-- Generic arguments that are not nested are accepted without spaces. -/
theorem compact_generics_accepted :
    Derivation [.rule .typeExpression] ((nestedGenerics 1).map (·.terminal)) ∧
      .semicolon ∉ (nestedGenerics 1).map (·.terminal) ∧
      (parse "fn f(x: A<A>) \x7b\x7d").diagnostics = [] ∧
      (parse "fn f(x: A<A>) \x7b\x7d").tree = (parse "fn f(x: A < A >) \x7b\x7d").tree := by
  have hcompact : declaration (compact (nestedGenerics 1)) = "fn f(x: A<A>) \x7b\x7d" := by
    decide +kernel
  have hspaced : declaration (spaced (nestedGenerics 1)) = "fn f(x: A < A >) \x7b\x7d" := by
    decide +kernel
  have hlength : .semicolon ∉ (nestedGenerics 1).map (·.terminal) := by decide
  obtain ⟨-, -, -, hiff, htree⟩ :=
    compact_type_accepted_iff (nestedGenerics 1) (derivation_nestedGenerics 1) hlength
  rw [hcompact] at hiff htree
  rw [hspaced] at htree
  have haccepted := hiff.mpr (by decide)
  exact ⟨derivation_nestedGenerics 1, hlength, haccepted, htree haccepted⟩

/-- Generic arguments that are nested once are a type, and are accepted when they are spaced out. -/
theorem compact_nested_generics_refused :
    Derivation [.rule .typeExpression] ((nestedGenerics 2).map (·.terminal)) ∧
      .semicolon ∉ (nestedGenerics 2).map (·.terminal) ∧
      declaration (compact (nestedGenerics 2)) = "fn f(x: A<A<A>>) \x7b\x7d" ∧
      (parse "fn f(x: A<A<A>>) \x7b\x7d").diagnostics ≠ [] ∧
      declaration (spaced (nestedGenerics 2)) = "fn f(x: A < A < A > >) \x7b\x7d" ∧
      (parse "fn f(x: A < A < A > >) \x7b\x7d").diagnostics = [] := by
  have hcompact : declaration (compact (nestedGenerics 2)) = "fn f(x: A<A<A>>) \x7b\x7d" := by
    decide +kernel
  have hspaced : declaration (spaced (nestedGenerics 2)) =
      "fn f(x: A < A < A > >) \x7b\x7d" := by
    decide +kernel
  have hrefused := nestedGenerics_refused 0
  have haccepted :=
    spaced_type_accepted (mem_typeTerminals_nestedGenerics 2) (derivation_nestedGenerics 2)
  rw [hcompact] at hrefused
  rw [hspaced] at haccepted
  exact ⟨derivation_nestedGenerics 2, by decide, hcompact, hrefused, hspaced, haccepted⟩

end CrateAnalysis
