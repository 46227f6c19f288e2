import CrateAnalysis.Proofs.Token.Segments
import CrateAnalysis.Proofs.Token.Terminal

/-!
# Recovery from strays

The lexer stops at a stray and begins anew on the rest of the text. A `Recovery` is a moment of
this loop: the offset at which the next stretch begins, the position of that place, and all that
was found before it. `Recovery.round` is one turn of the loop and `Recovery.Ends` counts the
restarts of a run.

The main statement describes the outcome of lexing for every source text: nothing of the text is
lost, every token and every diagnostic has the position at which the text before it ends, and the
loop ends after exactly one restart for each diagnostic.
-/

set_option autoImplicit false

namespace CrateAnalysis

/-- A moment of the recovery loop. -/
structure Recovery where
  offset : Nat
  base : Position
  tokens : List Token
  diagnostics : List Diagnostic

namespace Recovery

/-- The moment before the first stretch. -/
def start : Recovery := ⟨0, .start, [], []⟩

/-- One turn of the loop reads the stretch at the offset. If it reaches the end of the text, the
loop is left with all that was found; at a stray the loop goes on just after that character. -/
def round (code : List Char) (state : Recovery) : LexOutcome ⊕ Recovery :=
  match lexStretch state.base .start (code.drop state.offset) with
  | (lexemes, none) =>
    .inl
      { tokens := state.tokens ++ lexemes.map Lexeme.token ++ [Token.ofEnd (endPosition code)]
        diagnostics := state.diagnostics }
  | (lexemes, some (stray, later)) =>
    .inr
      { offset := code.length - later.length
        base := stray.position.advance stray.char
        tokens := state.tokens ++ lexemes.map Lexeme.token
        diagnostics := state.diagnostics ++ [stray.diagnostic] }

/-- The loop is left with an outcome after some number of restarts. -/
inductive Ends (code : List Char) : Nat → Recovery → LexOutcome → Prop
  | finish {state : Recovery} {outcome : LexOutcome} :
      state.round code = .inl outcome → Ends code 0 state outcome
  | restart {n : Nat} {state next : Recovery} {outcome : LexOutcome} :
      state.round code = .inr next → Ends code n next outcome → Ends code (n + 1) state outcome

/-- The loop can be left in one way only. -/
theorem Ends.unique {code : List Char} {n m : Nat} {state : Recovery} {a b : LexOutcome}
    (ha : Ends code n state a) (hb : Ends code m state b) : n = m ∧ a = b := by
  induction ha generalizing m with
  | finish hround =>
    cases hb with
    | finish hround' =>
      rw [hround] at hround'
      exact ⟨rfl, Sum.inl.inj hround'⟩
    | restart hround' _ =>
      rw [hround] at hround'
      cases hround'
  | restart hround _ ih =>
    cases hb with
    | finish hround' =>
      rw [hround] at hround'
      cases hround'
    | restart hround' hends =>
      rw [hround] at hround'
      cases hround'
      obtain ⟨rfl, rfl⟩ := ih hends
      exact ⟨rfl, rfl⟩

/-- From any moment on, the loop finds what lexing finds in the rest of the text, with one
restart for each stray. -/
theorem ends_lexAll (code before cs : List Char) {base : Position} {state : Recovery}
    (hbase : base = endPosition before) (hstate : state.base = base)
    (hcs : code.drop state.offset = cs) :
    Ends code (lexAll base cs).2.length state
      { tokens := state.tokens ++ (lexAll base cs).1.map Lexeme.token ++
          [Token.ofEnd (endPosition code)]
        diagnostics := state.diagnostics ++ (lexAll base cs).2.map Stray.diagnostic } := by
  fun_induction lexAll base cs generalizing before state with
  | case1 base cs lexemes h =>
    apply Ends.finish
    rw [round, hstate, hcs, h]
    simp
  | case2 base cs lexemes stray later h laterLexemes laterStrays hlater ih =>
    obtain ⟨segments, rest, hcut, -, -, rfl, -, hposition⟩ :=
      cut_lexStretch before [] hbase rfl h
    rw [List.append_nil] at hposition
    obtain ⟨next, hnext⟩ : ∃ next : Recovery, next =
        { offset := code.length - later.length
          base := stray.position.advance stray.char
          tokens := state.tokens ++ lexemes.map Lexeme.token
          diagnostics := state.diagnostics ++ [stray.diagnostic] } := ⟨_, rfl⟩
    have hround : state.round code = .inr next := by
      rw [round, hstate, hcs, h, hnext]
    have hsuffix : code.drop (code.length - later.length) = later := by
      have hwhole : code = code.take state.offset ++
          (segments.flatMap Segment.text ++ [stray.char]) ++ later := by
        rw [List.append_assoc, List.append_assoc, List.singleton_append, hcut.flatMap_text, ← hcs,
          List.take_append_drop]
      obtain ⟨consumed, hconsumed⟩ : ∃ consumed, code = consumed ++ later := ⟨_, hwhole⟩
      rw [hconsumed, List.length_append, Nat.add_sub_cancel, List.drop_left]
    have hends := @ih (before ++ segments.flatMap Segment.text ++ [stray.char]) next
      (by rw [endPosition_append_singleton, hposition]) (by rw [hnext]) (by rw [hnext, hsuffix])
    rw [hlater] at hends
    have hrun := Ends.restart hround hends
    simpa [hnext] using hrun

end Recovery

/-- Lexing loses nothing and puts everything in its place. A source text is cut into non-empty
segments, which are tokens, layout and strays; the tokens of the text are its token segments in
order, followed by the one end of input, and its diagnostics are its strays in order, each at the
position at which the text before it ends. The recovery loop ends with this outcome, and it does
so after exactly one restart for each diagnostic. -/
theorem tokenize_cut (code : String) :
    ∃ segments : List Segment,
      Segment.Cut segments code.toList [] ∧
      segments.flatMap Segment.text = code.toList ∧
      (∀ segment ∈ segments, segment.text ≠ []) ∧
      (tokenize code).tokens =
        Segment.tokens [] segments ++ [Token.ofEnd (endPosition code.toList)] ∧
      (∀ token ∈ Segment.tokens [] segments, token.kind ≠ Token.endKind) ∧
      (tokenize code).diagnostics = Segment.diagnostics [] segments ∧
      ∀ (n : Nat) (outcome : LexOutcome), Recovery.Ends code.toList n .start outcome ↔
        n = (tokenize code).diagnostics.length ∧ outcome = tokenize code := by
  obtain ⟨segments, hcut, htokens, hdiagnostics⟩ :=
    cut_lexAll [] code.toList (show Position.start = endPosition [] from rfl)
  have hends := Recovery.ends_lexAll code.toList [] code.toList
    (show Position.start = endPosition [] from rfl) (show Recovery.start.base = _ from rfl) rfl
  refine ⟨segments, hcut, ?_, hcut.text_ne_nil, ?_, ?_, hdiagnostics.symm, ?_⟩
  · simpa using hcut.flatMap_text
  · rw [htokens]
    rfl
  · rw [htokens]
    intro token hmem
    obtain ⟨lexeme, -, rfl⟩ := List.mem_map.mp hmem
    exact Terminal.name_ne_endKind _
  · have hrun : Recovery.Ends code.toList (tokenize code).diagnostics.length .start
        (tokenize code) := by
      simpa [tokenize, Recovery.start] using hends
    intro n outcome
    constructor
    · intro h
      exact h.unique hrun
    · rintro ⟨rfl, rfl⟩
      exact hrun

end CrateAnalysis
