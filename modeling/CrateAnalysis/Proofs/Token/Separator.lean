import CrateAnalysis.Proofs.Source.Position
import CrateAnalysis.Proofs.Token.Following
import CrateAnalysis.Token.Lexing

/-!
# Separators

A separator is text that may stand between two tokens: blanks, block comments, and line comments
up to the end of their line. The lexer passes over a separator and takes no token from it,
whatever comes after it.
-/

set_option autoImplicit false

namespace CrateAnalysis

/-- What may stand between tokens. -/
inductive Separator : List Char → Prop
  | nil : Separator []
  | blank {c : Char} {cs : List Char} :
      Pattern.isBlank c → Separator cs → Separator (c :: cs)
  | blockComment {body cs : List Char} :
      ¬ ['*', '/'] <:+: body → Separator cs → Separator ('/' :: '*' :: body ++ ['*', '/'] ++ cs)
  | lineComment {body cs : List Char} :
      '\n' ∉ body → Separator cs → Separator ('/' :: '/' :: body ++ ['\n'] ++ cs)

/-! ## One pattern -/

/-- The lexer goes on after what the first pattern that fits has taken, which is a lexeme if the
pattern has a terminal for it. -/
theorem lexStretch_append {text rest : List Char} {pattern : Pattern} (base : Position)
    (cursor : Cursor) (h : Pattern.first? (text ++ rest) = some (pattern, text.length)) :
    lexStretch base cursor (text ++ rest) =
      (((pattern.terminal? text).map (⟨·, text, cursor.absolute base⟩)).toList ++
        (lexStretch base (cursor.after text) rest).1,
        (lexStretch base (cursor.after text) rest).2) := by
  obtain ⟨c, tail, rfl⟩ := List.exists_cons_of_length_pos (Pattern.pos_of_first? h)
  rw [List.cons_append] at h ⊢
  rw [List.length_cons] at h
  rw [lexStretch]
  simp only [h, List.take_left, List.drop_left]
  cases pattern.terminal? (c :: tail) <;> simp

namespace Pattern

/-- At a blank the run of blanks is taken. -/
theorem first?_blank {c : Char} (hc : isBlank c) (rest : List Char) :
    first? (c :: rest) = some (.blank, runLength isBlank rest + 1) := by
  rw [first?_eq_some_iff]
  refine ⟨[.float, .integer, .word, .string, .blockComment], _, rfl, ?_, ?_⟩
  · simp [length?, blankLength?, runLength, hc]
  · intro earlier hearlier
    apply length?_eq_none_of_begins
    rcases eq_of_isBlank hc with rfl | rfl | rfl | rfl | rfl <;>
      revert earlier <;> decide +kernel

/-- A block comment ends at its first closing mark. -/
theorem blockCommentTail?_append {body : List Char} (hbody : ¬ ['*', '/'] <:+: body)
    (rest : List Char) :
    blockCommentTail? (body ++ '*' :: '/' :: rest) = some (body.length + 2) := by
  induction body with
  | nil => rfl
  | cons c body ih =>
    rw [List.infix_cons_iff, not_or] at hbody
    rw [List.cons_append, blockCommentTail?, ih hbody.2]
    · rfl
    · -- the closing mark would begin at the first character of the body
      rintro tail rfl htail
      apply hbody.1
      cases body with
      | nil => cases htail
      | cons d body =>
        obtain rfl := (List.cons.inj htail).1
        exact List.prefix_append ['*', '/'] body

/-- At a block comment the comment is taken, up to its first closing mark. -/
theorem first?_blockComment {body : List Char} (hbody : ¬ ['*', '/'] <:+: body)
    (rest : List Char) :
    first? ('/' :: '*' :: body ++ ['*', '/'] ++ rest) =
      some (.blockComment, ('/' :: '*' :: body ++ ['*', '/']).length) := by
  rw [first?_eq_some_iff]
  refine ⟨[.float, .integer, .word, .string], _, rfl, ?_, ?_⟩
  · simp [length?, blockCommentLength?, blockCommentTail?_append hbody]
  · intro earlier hearlier
    apply length?_eq_none_of_begins
    revert earlier
    decide +kernel

/-- At a line comment the line is taken, without its newline. -/
theorem first?_lineComment {body : List Char} (hbody : '\n' ∉ body) (rest : List Char) :
    first? ('/' :: '/' :: body ++ '\n' :: rest) =
      some (.lineComment, ('/' :: '/' :: body).length) := by
  have hrun : runLength (· ≠ '\n') (body ++ '\n' :: rest) = body.length := by
    rw [runLength, List.takeWhile_append_of_pos]
    · simp
    · intro c hc
      simpa using ne_of_mem_of_not_mem hc hbody
  rw [first?_eq_some_iff]
  refine ⟨[.float, .integer, .word, .string, .blockComment, .blank], _, rfl, ?_, ?_⟩
  · simp only [length?, lineCommentLength?, List.cons_append, hrun, List.length_cons]
  · intro earlier hearlier
    by_cases hcomment : earlier = .blockComment
    · rw [hcomment]
      simp [length?, blockCommentLength?]
    · apply length?_eq_none_of_begins
      revert earlier
      decide +kernel

end Pattern

/-! ## Separators are passed over -/

/-- The lexer takes all blanks that stand here together. -/
theorem lexStretch_blanks (base : Position) (cursor : Cursor) (cs : List Char) :
    lexStretch base cursor cs =
      lexStretch base (cursor.after (cs.takeWhile Pattern.isBlank))
        (cs.dropWhile Pattern.isBlank) := by
  cases cs with
  | nil => simp [Cursor.after]
  | cons c rest =>
    by_cases hc : Pattern.isBlank c
    · rw [List.takeWhile_cons_of_pos hc, List.dropWhile_cons_of_pos hc]
      have hwhole : (c :: rest.takeWhile Pattern.isBlank) ++ rest.dropWhile Pattern.isBlank =
          c :: rest := by
        rw [List.cons_append, List.takeWhile_append_dropWhile]
      have hfits := Pattern.first?_blank hc rest
      rw [← hwhole] at hfits
      rw [← hwhole, lexStretch_append base cursor hfits]
      rfl
    · rw [List.takeWhile_cons_of_neg hc, List.dropWhile_cons_of_neg hc]
      simp [Cursor.after]

/-- The lexer only moves on over a blank. -/
theorem lexStretch_blank {c : Char} (hc : Pattern.isBlank c) (base : Position) (cursor : Cursor)
    (rest : List Char) :
    lexStretch base cursor (c :: rest) = lexStretch base (cursor.after [c]) rest := by
  rw [lexStretch_blanks, List.takeWhile_cons_of_pos hc, List.dropWhile_cons_of_pos hc,
    lexStretch_blanks base (cursor.after [c]) rest, Cursor.after_append, List.singleton_append]

/-- The lexer only moves on over a separator. -/
theorem lexStretch_separator {separator : List Char} (h : Separator separator) (base : Position)
    (cursor : Cursor) (rest : List Char) :
    lexStretch base cursor (separator ++ rest) = lexStretch base (cursor.after separator) rest := by
  induction h generalizing cursor with
  | nil => simp [Cursor.after]
  | @blank c cs hc _ ih =>
    rw [List.cons_append, lexStretch_blank hc, ih, Cursor.after_append, List.singleton_append]
  | @blockComment body cs hbody _ ih =>
    rw [List.append_assoc, lexStretch_append base cursor (Pattern.first?_blockComment hbody _)]
    rw [ih, Cursor.after_append]
    rfl
  | @lineComment body cs hbody _ ih =>
    rw [List.append_assoc, List.append_assoc, List.singleton_append,
      lexStretch_append base cursor (Pattern.first?_lineComment hbody _)]
    simp only [Pattern.terminal?]
    rw [lexStretch_blank rfl, ih, Cursor.after_append, Cursor.after_append]
    simp

end CrateAnalysis
