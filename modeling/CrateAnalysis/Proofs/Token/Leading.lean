import CrateAnalysis.Proofs.Token.Recovery

/-!
# The tokens before the first stray

The parser reads only the first stretch of a text, which ends at the first stray. Its lexemes
can be told from the outcome of lexing alone: they are the tokens that stand before the place of
the first diagnostic, and all tokens but the end of input if there is no diagnostic.
-/

set_option autoImplicit false

namespace CrateAnalysis

namespace Segment

/-- A segment stands where what comes before it ends, and at least the segment itself comes
after that place. -/
theorem exists_of_mem_placed {before : List Char} {segments : List Segment}
    (hne : ∀ segment ∈ segments, segment.text ≠ []) {segment : Segment} {position : Position}
    (hmem : (segment, position) ∈ placed before segments) :
    ∃ earlier later, earlier ++ later = segments.flatMap text ∧ later ≠ [] ∧
      position = endPosition (before ++ earlier) := by
  induction segments generalizing before with
  | nil => cases hmem
  | cons first segments ih =>
    obtain ⟨hfirst, hrest⟩ := List.forall_mem_cons.mp hne
    rcases List.mem_cons.mp hmem with heq | hmem
    · obtain ⟨rfl, rfl⟩ := Prod.mk.inj heq
      refine ⟨[], (segment :: segments).flatMap text, rfl, ?_, by rw [List.append_nil]⟩
      rw [List.flatMap_cons]
      exact List.append_ne_nil_of_left_ne_nil hfirst _
    · obtain ⟨earlier, later, heq, hlater, hposition⟩ := ih hrest hmem
      refine ⟨first.text ++ earlier, later, ?_, hlater, ?_⟩
      · rw [List.append_assoc, heq, List.flatMap_cons]
      · rw [hposition, List.append_assoc]

/-- A token stands before the end of the text, where some part of the text ends. -/
theorem exists_of_mem_tokens {before : List Char} {segments : List Segment}
    (hne : ∀ segment ∈ segments, segment.text ≠ []) {token : Token}
    (hmem : token ∈ tokens before segments) :
    ∃ earlier later, earlier ++ later = segments.flatMap text ∧ later ≠ [] ∧
      token.position = endPosition (before ++ earlier) := by
  obtain ⟨⟨segment, position⟩, hplaced, htoken⟩ := List.mem_filterMap.mp hmem
  cases segment with
  | token terminal text =>
    obtain rfl := Option.some.inj htoken
    exact exists_of_mem_placed hne hplaced
  | layout => cases htoken
  | stray => cases htoken

end Segment

/-- The tokens that precede the first character that starts no token, without the end of
input. -/
def leadingTokens (outcome : LexOutcome) : List Token :=
  match outcome.diagnostics with
  | [] => outcome.tokens.dropLast
  | first :: _ => outcome.tokens.dropLast.filter (·.position.Before first.position)

/-- A text without strays is lexed in one stretch. -/
theorem tokenize_of_none {code : String} {lexemes : List Lexeme}
    (h : lexStretch .start .start code.toList = (lexemes, none)) :
    tokenize code =
      { tokens := lexemes.map Lexeme.token ++ [Token.ofEnd (endPosition code.toList)]
        diagnostics := [] } := by
  rw [tokenize, lexAll, h]
  rfl

/-- A text with a stray is lexed up to the first stray, and then on: what comes later does not
stand before the stray. -/
theorem tokenize_of_some {code : String} {lexemes : List Lexeme} {stray : Stray}
    {rest : List Char} (h : lexStretch .start .start code.toList = (lexemes, some (stray, rest))) :
    ∃ later diagnostics,
      tokenize code =
        { tokens := lexemes.map Lexeme.token ++ later ++ [Token.ofEnd (endPosition code.toList)]
          diagnostics := stray.diagnostic :: diagnostics } ∧
      (∀ token ∈ lexemes.map Lexeme.token, token.position.Before stray.position) ∧
      ∀ token ∈ later, ¬ token.position.Before stray.position := by
  obtain ⟨segments, _, hcut, htokens, -, rfl, -, hposition⟩ :=
    cut_lexStretch [] [] (show Position.start = endPosition [] from rfl) rfl h
  obtain ⟨laterSegments, hlaterCut, hlaterTokens, -⟩ :=
    cut_lexAll (segments.flatMap Segment.text ++ [stray.char]) rest rfl
  simp only [List.nil_append] at htokens hposition
  rw [endPosition_append_singleton, ← hposition] at hlaterTokens
  refine ⟨(lexAll (stray.position.advance stray.char) rest).1.map Lexeme.token,
    (lexAll (stray.position.advance stray.char) rest).2.map Stray.diagnostic, ?_, ?_, ?_⟩
  · rw [tokenize, lexAll, h]
    simp
  · rw [← htokens]
    intro token hmem
    obtain ⟨earlier, later, hwhole, hne, htoken⟩ :=
      Segment.exists_of_mem_tokens hcut.text_ne_nil hmem
    rw [htoken, hposition, ← hwhole]
    exact endPosition_before earlier hne
  · rw [← hlaterTokens]
    intro token hmem
    obtain ⟨earlier, -, -, -, htoken⟩ :=
      Segment.exists_of_mem_tokens hlaterCut.text_ne_nil hmem
    rw [htoken, hposition, List.append_assoc]
    exact (endPosition_before _ (by simp)).asymm

/-- A text has diagnostics exactly if its first stretch ends at a stray. -/
theorem diagnostics_eq_nil_iff {code : String} {lexemes : List Lexeme}
    {stop : Option (Stray × List Char)}
    (h : lexStretch .start .start code.toList = (lexemes, stop)) :
    (tokenize code).diagnostics = [] ↔ stop = none := by
  cases stop with
  | none => simp [tokenize_of_none h]
  | some found =>
    obtain ⟨later, diagnostics, heq, -⟩ := tokenize_of_some h
    simp [heq]

/-- The tokens before the first stray are those of the first stretch. -/
theorem leadingTokens_tokenize {code : String} {lexemes : List Lexeme}
    {stop : Option (Stray × List Char)}
    (h : lexStretch .start .start code.toList = (lexemes, stop)) :
    leadingTokens (tokenize code) = lexemes.map Lexeme.token := by
  cases stop with
  | none => rw [tokenize_of_none h, leadingTokens, List.dropLast_concat]
  | some found =>
    obtain ⟨later, diagnostics, heq, hbefore, hlater⟩ := tokenize_of_some h
    have hall : (lexemes.map Lexeme.token).filter
        (·.position.Before found.1.diagnostic.position) = lexemes.map Lexeme.token := by
      rw [List.filter_eq_self]
      intro token hmem
      exact decide_eq_true (hbefore token hmem)
    have hnone : later.filter (·.position.Before found.1.diagnostic.position) = [] := by
      rw [List.filter_eq_nil_iff]
      intro token hmem
      rw [decide_eq_true_iff]
      exact hlater token hmem
    rw [heq, leadingTokens]
    dsimp only
    rw [List.dropLast_concat, List.filter_append, hall, hnone, List.append_nil]

end CrateAnalysis
