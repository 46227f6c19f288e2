import CrateAnalysis.Proofs.Source.Position
import CrateAnalysis.Proofs.Token.Pattern
import CrateAnalysis.Token.Lexing

/-!
# The segments of a source text

A source text is cut into segments: tokens, layout, and strays, which are characters at which no
pattern fits. `Segment.Cut` says that segments lead from one place of a text to another, and
`Segment.placed` gives each of them the position at which the text before it ends. The main
statement is that lexing loses nothing: the tokens and the diagnostics of a text are its token
segments and its strays, each at its place, and the recovery after a stray begins anew exactly
once for each diagnostic.
-/

set_option autoImplicit false

namespace CrateAnalysis

/-- A piece of a source text. -/
inductive Segment
  | token (terminal : Terminal) (text : List Char)
  | layout (text : List Char)
  | stray (c : Char)

namespace Segment

/-- The characters of a segment. -/
def text : Segment → List Char
  | token _ text => text
  | layout text => text
  | stray c => [c]

/-- The segments, one after another, make up what lies between two places of a text, each given
by all that follows it: a token is what the first pattern that fits takes there, and at a stray
no pattern fits. -/
inductive Cut : List Segment → List Char → List Char → Prop
  | done {rest : List Char} : Cut [] rest rest
  | token {pattern : Pattern} {terminal : Terminal} {text next rest : List Char}
      {segments : List Segment} :
      Pattern.first? (text ++ next) = some (pattern, text.length) →
      pattern.terminal? text = some terminal → Cut segments next rest →
      Cut (.token terminal text :: segments) (text ++ next) rest
  | layout {text next rest : List Char} {segments : List Segment} :
      text ≠ [] → Layout text next → Cut segments next rest →
      Cut (.layout text :: segments) (text ++ next) rest
  | stray {c : Char} {next rest : List Char} {segments : List Segment} :
      Pattern.first? (c :: next) = none → Cut segments next rest →
      Cut (.stray c :: segments) (c :: next) rest

/-- Cuts of two parts that meet are a cut of both. -/
theorem Cut.append {first second : List Segment} {cs next rest : List Char}
    (hfirst : Cut first cs next) (hsecond : Cut second next rest) :
    Cut (first ++ second) cs rest := by
  induction hfirst with
  | done => exact hsecond
  | token hfits hterminal _ ih => exact .token hfits hterminal (ih hsecond)
  | layout hne hlayout _ ih => exact .layout hne hlayout (ih hsecond)
  | stray hfits _ ih => exact .stray hfits (ih hsecond)

/-- The texts of the segments, put together, are the text between the two places. -/
theorem Cut.flatMap_text {segments : List Segment} {cs rest : List Char}
    (h : Cut segments cs rest) : segments.flatMap text ++ rest = cs := by
  induction h with
  | done => rfl
  | token _ _ _ ih => simp [text, ih]
  | layout _ _ _ ih => simp [text, ih]
  | stray _ _ ih => simp [text, ih]

/-- No segment is empty. -/
theorem Cut.text_ne_nil {segments : List Segment} {cs rest : List Char}
    (h : Cut segments cs rest) : ∀ segment ∈ segments, segment.text ≠ [] := by
  induction h with
  | done => simp
  | token hfits _ _ ih =>
    have hpos := Pattern.pos_of_first? hfits
    rintro segment (_ | ⟨_, hmem⟩)
    · exact List.ne_nil_of_length_pos hpos
    · exact ih segment hmem
  | layout hne _ _ ih =>
    rintro segment (_ | ⟨_, hmem⟩)
    · exact hne
    · exact ih segment hmem
  | stray _ _ ih =>
    rintro segment (_ | ⟨_, hmem⟩)
    · exact List.cons_ne_nil _ _
    · exact ih segment hmem

/-- The segments with their positions: each stands where the text before it ends. -/
def placed (before : List Char) : List Segment → List (Segment × Position)
  | [] => []
  | segment :: segments =>
    (segment, endPosition before) :: placed (before ++ segment.text) segments

/-- The positions of later segments go on from the text of the earlier ones. -/
theorem placed_append (before : List Char) (first second : List Segment) :
    placed before (first ++ second) =
      placed before first ++ placed (before ++ first.flatMap text) second := by
  induction first generalizing before with
  | nil => simp [placed]
  | cons segment first ih => simp [placed, ih]

/-- The token of a segment at its place, if the segment is a token. -/
def token? : Segment × Position → Option Token
  | (.token terminal text, position) => some ⟨terminal.name, String.ofList text, position⟩
  | _ => none

/-- The diagnostic of a segment at its place, if the segment is a stray. -/
def diagnostic? : Segment × Position → Option Diagnostic
  | (.stray c, position) => some (.unrecognisedCharacter position c)
  | _ => none

/-- The tokens of a text that is cut into segments and follows `before`. -/
def tokens (before : List Char) (segments : List Segment) : List Token :=
  (placed before segments).filterMap token?

/-- The diagnostics of a text that is cut into segments and follows `before`. -/
def diagnostics (before : List Char) (segments : List Segment) : List Diagnostic :=
  (placed before segments).filterMap diagnostic?

/-- The tokens of later segments follow those of the earlier ones. -/
theorem tokens_append (before : List Char) (first second : List Segment) :
    tokens before (first ++ second) =
      tokens before first ++ tokens (before ++ first.flatMap text) second := by
  simp [tokens, placed_append]

/-- The diagnostics of later segments follow those of the earlier ones. -/
theorem diagnostics_append (before : List Char) (first second : List Segment) :
    diagnostics before (first ++ second) =
      diagnostics before first ++ diagnostics (before ++ first.flatMap text) second := by
  simp [diagnostics, placed_append]

/-- A segment of a token adds the token, at the place where the text before it ends. -/
@[simp]
theorem tokens_token (before text : List Char) (terminal : Terminal) (segments : List Segment) :
    tokens before (.token terminal text :: segments) =
      ⟨terminal.name, String.ofList text, endPosition before⟩ ::
        tokens (before ++ text) segments := rfl

/-- Layout adds no token. -/
@[simp]
theorem tokens_layout (before text : List Char) (segments : List Segment) :
    tokens before (.layout text :: segments) = tokens (before ++ text) segments := rfl

/-- A stray adds no token. -/
@[simp]
theorem tokens_stray (before : List Char) (c : Char) (segments : List Segment) :
    tokens before (.stray c :: segments) = tokens (before ++ [c]) segments := rfl

/-- A segment of a token adds no diagnostic. -/
@[simp]
theorem diagnostics_token (before text : List Char) (terminal : Terminal)
    (segments : List Segment) :
    diagnostics before (.token terminal text :: segments) =
      diagnostics (before ++ text) segments := rfl

/-- Layout adds no diagnostic. -/
@[simp]
theorem diagnostics_layout (before text : List Char) (segments : List Segment) :
    diagnostics before (.layout text :: segments) = diagnostics (before ++ text) segments := rfl

/-- A stray adds its diagnostic, at the place where the text before it ends. -/
@[simp]
theorem diagnostics_stray (before : List Char) (c : Char) (segments : List Segment) :
    diagnostics before (.stray c :: segments) =
      .unrecognisedCharacter (endPosition before) c ::
        diagnostics (before ++ [c]) segments := rfl

end Segment

/-! ## One stretch -/

/-- Where a stretch stops that began after `before` and has been cut into segments: at the end
of the text, or at a stray with its position, before which the text up to it ends. -/
def StopsAt (before : List Char) (rest : List Char) : Option (Stray × List Char) → Prop
  | none => rest = []
  | some (stray, later) =>
    rest = stray.char :: later ∧ Pattern.first? rest = none ∧
      stray.position = endPosition before

/-- What the first pattern that fits takes, and what follows it. -/
theorem cons_take_of_first? {c : Char} {tail : List Char} {pattern : Pattern} {n : Nat}
    (hfits : Pattern.first? (c :: tail) = some (pattern, n + 1)) :
    (c :: tail.take n).length = n + 1 ∧ c :: tail.take n ++ tail.drop n = c :: tail := by
  have hbound := (Pattern.length?_bounds (Pattern.length?_of_first? hfits).2).2
  constructor
  · rw [List.length_cons, List.length_take]
    rw [List.length_cons] at hbound
    omega
  · rw [List.cons_append, List.take_append_drop]

/-- A stretch is cut into tokens and layout up to its stray, and its lexemes are the tokens at
their places. The cursor counts from the beginning of the stretch, so the place of a token is
the end of all that came before it. -/
theorem cut_lexStretch (before done : List Char) {base : Position} {cursor : Cursor}
    {cs : List Char} {lexemes : List Lexeme} {stray : Option (Stray × List Char)}
    (hbase : base = endPosition before) (hcursor : cursor = Cursor.start.after done)
    (h : lexStretch base cursor cs = (lexemes, stray)) :
    ∃ segments rest, Segment.Cut segments cs rest ∧
      Segment.tokens (before ++ done) segments = lexemes.map Lexeme.token ∧
      Segment.diagnostics (before ++ done) segments = [] ∧
      StopsAt (before ++ done ++ segments.flatMap Segment.text) rest stray := by
  have hplace : ∀ (cursor : Cursor) (done : List Char), cursor = Cursor.start.after done →
      cursor.absolute base = endPosition (before ++ done) := by
    rintro _ done rfl
    rw [hbase, Cursor.absolute_after]
  fun_induction lexStretch base cursor cs generalizing done lexemes stray with
  | case1 =>
    obtain ⟨rfl, rfl⟩ := Prod.mk.inj h
    exact ⟨[], [], .done, rfl, rfl, rfl⟩
  | case2 cursor c tail pattern n hfits text later found eq terminal hterminal =>
    rename_i ih
    obtain ⟨rfl, rfl⟩ := Prod.mk.inj h
    obtain ⟨segments, rest, hcut, htokens, hdiagnostics, hstop⟩ :=
      @ih (done ++ text) later found (by rw [hcursor, Cursor.after_append]) eq
    obtain ⟨hlength, hwhole⟩ : text.length = n + 1 ∧ text ++ tail.drop n = c :: tail :=
      cons_take_of_first? hfits
    refine ⟨.token terminal text :: segments, rest, ?_, ?_, ?_, ?_⟩
    · rw [← hwhole]
      exact .token (by rw [hwhole, hlength]; exact hfits) hterminal hcut
    · rw [← List.append_assoc] at htokens
      rw [Segment.tokens_token, htokens, List.map_cons, Lexeme.token, hplace cursor done hcursor]
    · rw [← List.append_assoc] at hdiagnostics
      rw [Segment.diagnostics_token, hdiagnostics]
    · simpa [Segment.text] using hstop
  | case3 cursor c tail pattern n hfits text later found eq hlayout =>
    rename_i ih
    obtain ⟨rfl, rfl⟩ := Prod.mk.inj h
    obtain ⟨segments, rest, hcut, htokens, hdiagnostics, hstop⟩ :=
      @ih (done ++ text) later found (by rw [hcursor, Cursor.after_append]) eq
    have hwhole : text ++ tail.drop n = c :: tail := (cons_take_of_first? hfits).2
    have hlay := layout_of_length? (Pattern.length?_of_first? hfits).2 hlayout
    refine ⟨.layout text :: segments, rest, ?_, ?_, ?_, ?_⟩
    · rw [← hwhole]
      exact .layout (List.cons_ne_nil _ _) hlay hcut
    · rw [← List.append_assoc] at htokens
      rw [Segment.tokens_layout, htokens]
    · rw [← List.append_assoc] at hdiagnostics
      rw [Segment.diagnostics_layout, hdiagnostics]
    · simpa [Segment.text] using hstop
  | case4 cursor c tail hnone =>
    obtain ⟨rfl, rfl⟩ := Prod.mk.inj h
    refine ⟨[], c :: tail, .done, rfl, rfl, rfl, ?_, ?_⟩
    · -- the only other way to stop would be a pattern that takes nothing
      cases hfirst : Pattern.first? (c :: tail) with
      | none => rfl
      | some found =>
        obtain ⟨pattern, n⟩ := found
        have hpos := Pattern.pos_of_first? hfirst
        obtain ⟨m, rfl⟩ := Nat.exists_eq_add_one_of_ne_zero (Nat.pos_iff_ne_zero.mp hpos)
        exact (hnone pattern m hfirst).elim
    · simpa using hplace cursor done hcursor

/-- A whole text is cut into segments whose tokens and strays are what lexing finds. -/
theorem cut_lexAll (before cs : List Char) {base : Position} (hbase : base = endPosition before) :
    ∃ segments, Segment.Cut segments cs [] ∧
      Segment.tokens before segments = (lexAll base cs).1.map Lexeme.token ∧
      Segment.diagnostics before segments = (lexAll base cs).2.map Stray.diagnostic := by
  fun_induction lexAll base cs generalizing before with
  | case1 base cs lexemes h =>
    obtain ⟨segments, rest, hcut, htokens, hdiagnostics, hstop⟩ :=
      cut_lexStretch before [] hbase rfl h
    obtain rfl : rest = [] := hstop
    rw [List.append_nil] at htokens hdiagnostics
    exact ⟨segments, hcut, htokens, hdiagnostics⟩
  | case2 base cs lexemes stray later h laterLexemes laterStrays hlater ih =>
    obtain ⟨first, rest, hfirst, htokens, hdiagnostics, rfl, hnone, hposition⟩ :=
      cut_lexStretch before [] hbase rfl h
    rw [List.append_nil] at htokens hdiagnostics hposition
    obtain ⟨second, hsecond, htokens', hdiagnostics'⟩ :=
      @ih (before ++ first.flatMap Segment.text ++ [stray.char])
        (by rw [endPosition_append_singleton, hposition])
    rw [hlater] at htokens' hdiagnostics'
    refine ⟨first ++ .stray stray.char :: second, hfirst.append (.stray hnone hsecond), ?_, ?_⟩
    · rw [Segment.tokens_append, Segment.tokens_stray, htokens, htokens', List.map_append]
    · rw [Segment.diagnostics_append, Segment.diagnostics_stray, hdiagnostics, hdiagnostics',
        ← hposition]
      rfl

end CrateAnalysis
