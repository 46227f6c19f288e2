import CrateAnalysis.Proofs.Token.Spacing
import CrateAnalysis.Syntax.Parse

/-!
# Layout does not matter

What becomes of reading lexemes depends on their terminals and their texts, not on the places
where they stand. So a text keeps its tokens when other separators are put around them, and a
text without lexical diagnostics keeps its tree and the messages about its syntax as well.
-/

set_option autoImplicit false

namespace CrateAnalysis

/-- What a token is, wherever it stands. -/
def Token.shape (token : Token) : String × String := (token.kind, token.text)

/-- Two readings that agree but for the places of their lexemes. -/
inductive Reading.Alike : Reading → Reading → Prop
  | complete (children : List Cst) : Alike (.complete children) (.complete children)
  | unexpected {lexeme other : Lexeme} (expected : List Terminal) :
      lexeme.shape = other.shape → Alike (.unexpected lexeme expected) (.unexpected other expected)
  | cutShort (expected : List Terminal) : Alike (.cutShort expected) (.cutShort expected)

section Shapes

variable {lexemes others : List Lexeme}

/-- What does not depend on the places of lexemes is the same for lexemes of the same shapes. -/
theorem map_eq_of_map_shape {β : Type} {f : Lexeme → β} (g : Terminal × List Char → β)
    (hf : ∀ lexeme, f lexeme = g lexeme.shape)
    (h : lexemes.map Lexeme.shape = others.map Lexeme.shape) : lexemes.map f = others.map f := by
  have hshapes := congrArg (List.map g) h
  rw [List.map_map, List.map_map] at hshapes
  rwa [funext hf]

/-- Lexemes of the same kinds and texts make tokens of the same kinds and texts. -/
theorem map_tokenShape_eq (h : lexemes.map Lexeme.shape = others.map Lexeme.shape) :
    (lexemes.map Lexeme.token).map Token.shape = (others.map Lexeme.token).map Token.shape := by
  rw [List.map_map, List.map_map]
  exact map_eq_of_map_shape (fun shape => (shape.1.name, String.ofList shape.2)) (fun _ => rfl) h

/-- Lexemes of the same kinds and texts are read alike, wherever they stand. -/
theorem alike_readLexemes (h : lexemes.map Lexeme.shape = others.map Lexeme.shape) :
    (readLexemes lexemes).Alike (readLexemes others) := by
  have hterminals : lexemes.map (·.terminal) = others.map (·.terminal) :=
    map_eq_of_map_shape Prod.fst (fun _ => rfl) h
  have hleaves : lexemes.map (·.token.leaf) = others.map (·.token.leaf) :=
    map_eq_of_map_shape (fun shape => ⟨String.ofList shape.2, some shape.1.name⟩) (fun _ => rfl) h
  have hdrop : ∀ n, (lexemes.drop n).map Lexeme.shape = (others.drop n).map Lexeme.shape := by
    intro n
    rw [List.map_drop, h, List.map_drop]
  unfold readLexemes
  rw [hterminals, hleaves]
  generalize crateGrammar.chart (others.map (·.terminal)) = chart
  have hdrop := hdrop (Chart.reached chart)
  dsimp only
  cases hlexemes : lexemes.drop (Chart.reached chart) with
  | nil =>
    rw [hlexemes, List.map_nil, eq_comm, List.map_eq_nil_iff] at hdrop
    rw [hdrop]
    dsimp only
    cases Chart.children? crateGrammar chart (others.map (·.token.leaf)).toArray with
    | some children => exact .complete children
    | none => exact .cutShort _
  | cons lexeme after =>
    rw [hlexemes, List.map_cons, eq_comm, List.map_eq_cons_iff] at hdrop
    obtain ⟨other, later, hothers, hshape, -⟩ := hdrop
    rw [hothers]
    exact .unexpected _ hshape.symm

end Shapes

/-- The flat tree of some tokens does not depend on their places. -/
theorem flatTree_congr {tokens others : List Token}
    (h : tokens.map Token.shape = others.map Token.shape) : flatTree tokens = flatTree others := by
  have hchildren := congrArg (List.map fun shape => Tree.leaf (Leaf.mk shape.2 (some shape.1))) h
  rw [List.map_map, List.map_map] at hchildren
  exact congrArg (Tree.rule rootName) hchildren

/-- Texts without strays whose lexemes are alike have alike parses. -/
theorem parse_congr {code other : String} {lexemes others : List Lexeme}
    (hcode : lexStretch .start .start code.toList = (lexemes, none))
    (hother : lexStretch .start .start other.toList = (others, none))
    (h : lexemes.map Lexeme.shape = others.map Lexeme.shape)
    (htokens : (tokenize code).tokens.map Token.shape = (tokenize other).tokens.map Token.shape) :
    (parse code).tree = (parse other).tree ∧
      (parse code).diagnostics.map Diagnostic.message =
        (parse other).diagnostics.map Diagnostic.message := by
  have hread := alike_readLexemes h
  unfold parse
  dsimp only
  rw [hcode, hother]
  dsimp only
  generalize readLexemes lexemes = reading at hread
  generalize readLexemes others = otherReading at hread
  cases hread with
  | complete children => exact ⟨rfl, rfl⟩
  | cutShort expected => exact ⟨flatTree_congr htokens, rfl⟩
  | @unexpected lexeme other expected hshape =>
    refine ⟨flatTree_congr htokens, ?_⟩
    have htext : lexeme.text = other.text := congrArg Prod.snd hshape
    simp [Diagnostic.unexpectedToken, htext]

/-- A text whose tokens are those of another, with other separators around them, has no lexical
diagnostic and the same tokens but for their places. If the other text has no lexical diagnostic
either, then both have the same tree and the same messages about their syntax. -/
theorem Spacing.keeps_tokens_and_tree (code : String) (spacing : Spacing)
    (hgaps : spacing.gaps.length = (tokenize code).tokens.dropLast.length) :
    let laid := spacing.lay ((tokenize code).tokens.dropLast.map Token.text)
    (tokenize laid).diagnostics = [] ∧
      (tokenize laid).tokens.map (fun token => (token.kind, token.text)) =
        (tokenize code).tokens.map (fun token => (token.kind, token.text)) ∧
      ((tokenize code).diagnostics = [] →
        (parse laid).tree = (parse code).tree ∧
          (parse laid).diagnostics.map Diagnostic.message =
            (parse code).diagnostics.map Diagnostic.message) := by
  intro laid
  obtain ⟨lexemes, hlaid, hshapes⟩ := spacing.lexStretch_lay code hgaps
  have htokens : (tokenize laid).tokens.map Token.shape =
      (tokenize code).tokens.map Token.shape := by
    rw [tokenize_of_none hlaid, tokenize]
    simp only [List.map_append, map_tokenShape_eq hshapes]
    rfl
  refine ⟨(diagnostics_eq_nil_iff hlaid).mpr rfl, htokens, fun hlexical => ?_⟩
  obtain ⟨⟨others, stop⟩, hcode⟩ :
    ∃ stretch, lexStretch .start .start code.toList = stretch := ⟨_, rfl⟩
  obtain rfl := (diagnostics_eq_nil_iff hcode).mp hlexical
  have hall : (lexAll .start code.toList).1 = others := by
    rw [lexAll, hcode]
  rw [hall] at hshapes
  exact parse_congr hlaid hcode hshapes htokens

/-- A declaration keeps its tree when comments and line breaks are put between its tokens. -/
theorem Spacing.keeps_declaration :
    (tokenize "fn f();").diagnostics = [] ∧
      (tokenize "/*/**/fn f\t( //*\n)\r\n;").diagnostics = [] ∧
      (parse "/*/**/fn f\t( //*\n)\r\n;").tree = (parse "fn f();").tree := by
  let spacing : Spacing :=
    { opening := ['/', '*', '/', '*', '*', '/']
      gaps := [[' '], ['\t'], [' ', '/', '/', '*', '\n'], ['\r', '\n'], []]
      separator_opening := @Separator.blockComment ['/', '*'] [] (by decide) .nil
      separator_of_mem := by
        simp only [List.forall_mem_cons]
        exact ⟨.blank rfl .nil, .blank rfl .nil,
          .blank rfl (@Separator.lineComment ['*'] [] (by decide) .nil),
          .blank rfl (.blank rfl .nil), .nil, by simp⟩
      startsBlank_of_mem := by simp [StartsBlank, Pattern.isBlank]
      ne_nil_of_mem := by decide }
  have hlexical : (tokenize "fn f();").diagnostics = [] := by decide +kernel
  have hlaid : spacing.lay ((tokenize "fn f();").tokens.dropLast.map Token.text) =
      "/*/**/fn f\t( //*\n)\r\n;" := by decide +kernel
  obtain ⟨hdiagnostics, -, hparse⟩ :=
    Spacing.keeps_tokens_and_tree "fn f();" spacing (by decide +kernel)
  rw [hlaid] at hdiagnostics hparse
  exact ⟨hlexical, hdiagnostics, (hparse hlexical).1⟩

end CrateAnalysis
