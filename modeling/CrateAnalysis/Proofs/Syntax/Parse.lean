import CrateAnalysis.Proofs.Syntax.Reading
import CrateAnalysis.Proofs.Token.Leading

/-!
# What parsing a source text comes to

`Verdict` lists the ways in which the parse of a text ends, in terms of the grammar as it is
written. From it follow the main statements: a text without lexical diagnostics is accepted
exactly if the kinds of its tokens are those of a crate, and its tree is then a derivation tree;
every other text gets the one syntax diagnostic that its tokens call for, if any; and the leaves
of every tree are all the tokens of the text.
-/

set_option autoImplicit false

namespace CrateAnalysis

/-- The ways in which the parse of a text ends, given the lexemes of its first stretch and where
that stretch stops. -/
inductive Verdict (code : String) (lexemes : List Lexeme) :
    Option (Stray × List Char) → ParseOutcome → Prop
  /-- The lexemes are a crate, and there is no stray. -/
  | accepted {children : List Cst} :
      IsCrate (lexemes.map (·.terminal)) →
      DerivationTrees [.rule .crate] [.rule rootName children] →
      Tree.leavesAll children = lexemes.map (·.token.leaf) →
      Verdict code lexemes none
        ⟨.rule rootName (children ++ [.leaf (Token.ofEnd (endPosition code.toList)).leaf]), []⟩
  /-- A lexeme cannot stand where it does. -/
  | unexpected {stop : Option (Stray × List Char)} {before after : List Lexeme}
      {lexeme : Lexeme} :
      lexemes = before ++ lexeme :: after → BeginsCrate (before.map (·.terminal)) →
      ¬ BeginsCrate ((before ++ [lexeme]).map (·.terminal)) →
      Verdict code lexemes stop
        ⟨flatTree (tokenize code).tokens,
          [.unexpectedToken lexeme.position (String.ofList lexeme.text)
            (describeTerminals (followers ((before.map (·.terminal)).map Terminal.name)))]⟩
  /-- The lexemes are the beginning of a crate up to a stray. -/
  | strayed {found : Stray × List Char} :
      BeginsCrate (lexemes.map (·.terminal)) →
      Verdict code lexemes (some found) ⟨flatTree (tokenize code).tokens, []⟩
  /-- The lexemes are the beginning of a crate, but the text ends there. -/
  | cutShort :
      BeginsCrate (lexemes.map (·.terminal)) → ¬ IsCrate (lexemes.map (·.terminal)) →
      Verdict code lexemes none
        ⟨flatTree (tokenize code).tokens,
          [.unexpectedEnd (endPosition code.toList)
            (describeTerminals (followers ((lexemes.map (·.terminal)).map Terminal.name)))]⟩

/-- Every parse ends in one of these ways. -/
theorem verdict_parse {code : String} {lexemes : List Lexeme}
    {stop : Option (Stray × List Char)}
    (h : lexStretch .start .start code.toList = (lexemes, stop)) :
    Verdict code lexemes stop (parse code) := by
  have hreading := describes_readLexemes lexemes
  unfold parse
  dsimp only
  rw [h]
  dsimp only
  cases hread : readLexemes lexemes with
  | complete children =>
    rw [hread] at hreading
    obtain ⟨hcrate, htrees, hleaves⟩ := hreading
    cases stop with
    | none => exact .accepted hcrate htrees hleaves
    | some found => exact .strayed hcrate.begins
  | unexpected lexeme expected =>
    rw [hread] at hreading
    obtain ⟨before, after, heq, hbegins, hstuck, hexpected⟩ := hreading
    dsimp only
    rw [describeTerminals_followers hexpected]
    exact .unexpected heq hbegins hstuck
  | cutShort expected =>
    rw [hread] at hreading
    obtain ⟨hbegins, hcrate, hexpected⟩ := hreading
    cases stop with
    | none =>
      dsimp only
      rw [describeTerminals_followers hexpected]
      exact .cutShort hbegins hcrate
    | some found => exact .strayed hbegins

/-- A lexeme that cannot stand where it does keeps all the lexemes from being the beginning of a
crate. -/
theorem not_beginsCrate_of_stuck {lexemes before after : List Lexeme} {lexeme : Lexeme}
    (heq : lexemes = before ++ lexeme :: after)
    (hstuck : ¬ BeginsCrate ((before ++ [lexeme]).map (·.terminal))) :
    ¬ BeginsCrate (lexemes.map (·.terminal)) := by
  intro h
  rw [heq, List.append_cons, List.map_append] at h
  exact hstuck h.of_append

/-- The kinds of tokens are the names of their terminals. -/
theorem map_kind_map_token (lexemes : List Lexeme) :
    (lexemes.map Lexeme.token).map Token.kind = (lexemes.map (·.terminal)).map Terminal.name := by
  rw [List.map_map, List.map_map]
  rfl

/-- A text that is one stretch is parsed without a diagnostic exactly if its lexemes are a crate. -/
theorem diagnostics_parse_eq_nil_iff {code : String} {lexemes : List Lexeme}
    (h : lexStretch .start .start code.toList = (lexemes, none)) :
    (parse code).diagnostics = [] ↔ IsCrate (lexemes.map (·.terminal)) := by
  have hverdict := verdict_parse h
  generalize parse code = outcome at hverdict
  cases hverdict with
  | accepted hcrate => exact ⟨fun _ => hcrate, fun _ => rfl⟩
  | unexpected heq _ hstuck =>
    have hcrate := mt IsCrate.begins (not_beginsCrate_of_stuck heq hstuck)
    exact ⟨by simp, fun h => absurd h hcrate⟩
  | cutShort _ hcrate => exact ⟨by simp, fun h => absurd h hcrate⟩

/-- A text without lexical diagnostics is parsed without a diagnostic exactly if the kinds of its
tokens, the end of input left out, are those of a crate. In that case its tree, without the end
of input at its end, is a derivation tree of the crate over these tokens. -/
theorem parse_accepts_iff (code : String) (hlexical : (tokenize code).diagnostics = []) :
    ((parse code).diagnostics = [] ↔
        KindsOfCrate ((tokenize code).tokens.dropLast.map Token.kind)) ∧
      ((parse code).diagnostics = [] →
        ∃ children,
          (parse code).tree =
            .rule "crate" (children ++ [.leaf (Token.ofEnd (endPosition code.toList)).leaf]) ∧
          DerivationTrees [.rule .crate] [.rule "crate" children] ∧
          Tree.leavesAll children = (tokenize code).tokens.dropLast.map Token.leaf) := by
  obtain ⟨⟨lexemes, stop⟩, h⟩ :
    ∃ stretch, lexStretch .start .start code.toList = stretch := ⟨_, rfl⟩
  obtain rfl := (diagnostics_eq_nil_iff h).mp hlexical
  have htokens : (tokenize code).tokens.dropLast = lexemes.map Lexeme.token := by
    rw [tokenize_of_none h, List.dropLast_concat]
  rw [htokens, map_kind_map_token, kindsOfCrate_map_name]
  cases hverdict : parse code with
  | mk tree diagnostics =>
    have hcases := verdict_parse h
    rw [hverdict] at hcases
    cases hcases with
    | accepted hcrate htrees hleaves =>
      refine ⟨⟨fun _ => hcrate, fun _ => rfl⟩, fun _ => ⟨_, rfl, htrees, ?_⟩⟩
      rw [hleaves, List.map_map]
      rfl
    | unexpected heq hbegins hstuck =>
      have hcrate := mt IsCrate.begins (not_beginsCrate_of_stuck heq hstuck)
      exact ⟨⟨by simp, fun h => absurd h hcrate⟩, by simp⟩
    | cutShort hbegins hcrate =>
      exact ⟨⟨by simp, fun h => absurd h hcrate⟩, by simp⟩

/-- A function without a body is a crate of one declaration. -/
theorem parse_accepts_declaration :
    (tokenize "fn f();").diagnostics = [] ∧ (parse "fn f();").diagnostics = [] ∧
      KindsOfCrate ["FN", "IDENT", "LPAREN", "RPAREN", "SEMI"] ∧
      ∃ children,
        (parse "fn f();").tree = .rule "crate" (children ++ [.leaf ⟨"<EOF>", some "EOF"⟩]) ∧
        DerivationTrees [.rule .crate] [.rule "crate" children] ∧
        (Tree.leavesAll children).map Leaf.text = ["fn", "f", "(", ")", ";"] := by
  have hlexical : (tokenize "fn f();").diagnostics = [] := by decide +kernel
  have hkinds : (tokenize "fn f();").tokens.dropLast.map Token.kind =
      ["FN", "IDENT", "LPAREN", "RPAREN", "SEMI"] := by decide +kernel
  have htexts : (tokenize "fn f();").tokens.dropLast.map Token.text =
      ["fn", "f", "(", ")", ";"] := by decide +kernel
  have haccepted : (parse "fn f();").diagnostics = [] := by decide +kernel
  obtain ⟨hiff, htree⟩ := parse_accepts_iff "fn f();" hlexical
  obtain ⟨children, hroot, htrees, hleaves⟩ := htree haccepted
  refine ⟨hlexical, haccepted, hkinds ▸ hiff.mp haccepted, children, hroot, htrees, ?_⟩
  rw [hleaves, List.map_map, ← htexts]
  rfl

/-- The syntax diagnostics of a text depend on the kinds of the tokens before its first stray, and
on whether there is a stray. If some first part of these kinds is not viable, the one diagnostic
stands at the last token of the shortest such part, and what it expects is what can follow the
kinds before that token. Otherwise a text with a stray has no diagnostic, a text that is not a
whole crate has one at its end, which expects what can follow all the kinds, and a crate has
none. Whenever the text is not accepted, its tree is flat. -/
theorem parse_diagnostics (code : String) :
    let tokens := leadingTokens (tokenize code)
    let kinds := tokens.map Token.kind
    let flat := flatTree (tokenize code).tokens
    ((∃ initial, initial <+: kinds ∧ ¬ ViableKinds initial) →
      ∃ before token after, tokens = before ++ token :: after ∧
        (∀ initial, initial <+: before.map Token.kind → ViableKinds initial) ∧
        ¬ ViableKinds ((before ++ [token]).map Token.kind) ∧
        parse code =
          ⟨flat, [.unexpectedToken token.position token.text
            (describeTerminals (followers (before.map Token.kind)))]⟩) ∧
    ((∀ initial, initial <+: kinds → ViableKinds initial) →
      ((tokenize code).diagnostics ≠ [] → parse code = ⟨flat, []⟩) ∧
      ((tokenize code).diagnostics = [] → ¬ KindsOfCrate kinds →
        parse code =
          ⟨flat, [.unexpectedEnd (endPosition code.toList)
            (describeTerminals (followers kinds))]⟩) ∧
      ((tokenize code).diagnostics = [] → KindsOfCrate kinds → (parse code).diagnostics = [])) ∧
    (parse code).diagnostics.length ≤ 1 := by
  intro tokens kinds flat
  obtain ⟨⟨lexemes, stop⟩, h⟩ :
    ∃ stretch, lexStretch .start .start code.toList = stretch := ⟨_, rfl⟩
  have htokens : tokens = lexemes.map Lexeme.token := leadingTokens_tokenize h
  have hkinds : kinds = (lexemes.map (·.terminal)).map Terminal.name := by
    rw [← map_kind_map_token, ← htokens]
  have hviable : ViableKinds kinds ↔ BeginsCrate (lexemes.map (·.terminal)) := by
    rw [hkinds, viableKinds_map_name]
  have hcrate : KindsOfCrate kinds ↔ IsCrate (lexemes.map (·.terminal)) := by
    rw [hkinds, kindsOfCrate_map_name]
  rw [Ne, diagnostics_eq_nil_iff h]
  have hfirst : BeginsCrate (lexemes.map (·.terminal)) →
      ¬ ∃ initial, initial <+: kinds ∧ ¬ ViableKinds initial := by
    rintro hbegins ⟨initial, hinitial, hnot⟩
    exact hnot ((hviable.mpr hbegins).of_initial hinitial)
  obtain ⟨outcome, hparse⟩ : ∃ outcome, parse code = outcome := ⟨_, rfl⟩
  have hverdict := verdict_parse h
  rw [hparse] at hverdict ⊢
  cases hverdict with
  | accepted hword =>
    refine ⟨fun hsome => absurd hsome (hfirst hword.begins), fun _ => ⟨?_, ?_, ?_⟩, Nat.zero_le _⟩
    · exact fun hne => absurd rfl hne
    · exact fun _ hnot => absurd (hcrate.mpr hword) hnot
    · exact fun _ _ => rfl
  | @unexpected _ before after lexeme heq hbegins hstuck =>
    refine ⟨fun _ => ?_, fun hall => ?_, Nat.le_refl _⟩
    · rw [← viableKinds_map_name] at hbegins hstuck
      rw [← map_kind_map_token] at hbegins hstuck ⊢
      refine ⟨before.map Lexeme.token, lexeme.token, after.map Lexeme.token, ?_, ?_, ?_, rfl⟩
      · rw [htokens, heq, List.map_append, List.map_cons]
      · exact fun initial hinitial => hbegins.of_initial hinitial
      · rwa [List.map_append] at hstuck
    · have hbegins := hviable.mp (hall kinds List.prefix_rfl)
      exact absurd hbegins (not_beginsCrate_of_stuck heq hstuck)
  | strayed hbegins =>
    refine ⟨fun hsome => absurd hsome (hfirst hbegins), fun _ => ⟨?_, ?_, ?_⟩, Nat.zero_le _⟩
    · exact fun _ => rfl
    · rintro ⟨⟩
    · rintro ⟨⟩
  | cutShort hbegins hword =>
    refine ⟨fun hsome => absurd hsome (hfirst hbegins), fun _ => ⟨?_, ?_, ?_⟩, Nat.le_refl _⟩
    · exact fun hne => absurd rfl hne
    · exact fun _ _ => by rw [hkinds]
    · exact fun _ hkindsOf => absurd (hcrate.mp hkindsOf) hword

/-- The flat tree has the tokens as its leaves. -/
theorem leaves_flatTree (tokens : List Token) :
    (flatTree tokens).leaves = tokens.map Token.leaf := by
  rw [flatTree, Tree.leaves]
  induction tokens with
  | nil => rfl
  | cons token tokens ih =>
    rw [List.map_cons, Tree.leavesAll, ih]
    rfl

/-- Every tree of a text has the tokens as its leaves, the flat ones and those of a crate. -/
theorem leaves_tree_parse (code : String) :
    (parse code).tree.leaves = (tokenize code).tokens.map Token.leaf ∧
      ∃ children, (parse code).tree = .rule rootName children := by
  obtain ⟨⟨lexemes, stop⟩, h⟩ :
    ∃ stretch, lexStretch .start .start code.toList = stretch := ⟨_, rfl⟩
  obtain ⟨outcome, hparse⟩ : ∃ outcome, parse code = outcome := ⟨_, rfl⟩
  have hverdict := verdict_parse h
  rw [hparse] at hverdict ⊢
  cases hverdict with
  | accepted _ _ hleaves =>
    refine ⟨?_, _, rfl⟩
    rw [tokenize_of_none h, Tree.leaves, Tree.leavesAll_append, hleaves, List.map_append,
      List.map_map]
    rfl
  | unexpected => exact ⟨leaves_flatTree _, _, rfl⟩
  | strayed => exact ⟨leaves_flatTree _, _, rfl⟩
  | cutShort => exact ⟨leaves_flatTree _, _, rfl⟩

/-- The leaves of the tree of a text, whatever becomes of it, are its tokens with their kinds.
The last of them is the end of input and there is no other, and the root is a crate. -/
theorem leaves_parse (code : String) :
    (parse code).tree.leaves =
        (tokenize code).tokens.map (fun token => ⟨token.text, some token.kind⟩) ∧
      (∃ before, (parse code).tree.leaves = before ++ [⟨"<EOF>", some "EOF"⟩] ∧
        ∀ leaf ∈ before, leaf.kind? ≠ some "EOF") ∧
      ∃ children, (parse code).tree = .rule "crate" children := by
  obtain ⟨hleaves, hroot⟩ := leaves_tree_parse code
  refine ⟨hleaves, ?_, hroot⟩
  obtain ⟨lexemes, htokens⟩ : ∃ lexemes : List Lexeme, (tokenize code).tokens =
      lexemes.map Lexeme.token ++ [Token.ofEnd (endPosition code.toList)] := ⟨_, rfl⟩
  refine ⟨(lexemes.map Lexeme.token).map Token.leaf, ?_, ?_⟩
  · rw [hleaves, htokens, List.map_append]
    rfl
  · intro leaf hleaf hkind
    obtain ⟨_, htoken, rfl⟩ := List.mem_map.mp hleaf
    obtain ⟨lexeme, -, rfl⟩ := List.mem_map.mp htoken
    exact lexeme.terminal.name_ne_endKind (Option.some.inj hkind)

end CrateAnalysis
