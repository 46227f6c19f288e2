import CrateAnalysis.Proofs.Token.Spacing
import CrateAnalysis.Proofs.Token.Unreadable

/-!
# Tokens without separators

Tokens can be written next to each other wherever the next one cannot be taken for a part of the
one before it: a word ends where no letter, digit or underscore follows, and an operator where no
longer operator goes on with the next character. `ReadsAs` says what a text is
read as; it is built up token by token from the end of the text.
-/

set_option autoImplicit false

namespace CrateAnalysis

/-! ## Where a token ends -/

/-- Whether another operator begins with the spelling of this one and the character after it. -/
def Terminal.goesOn (terminal : Terminal) (c : Char) : Bool :=
  operators.any fun other => other.spelling?.any fun longer =>
    terminal.spelling?.any fun spelling => (spelling.toList ++ [c]).isPrefixOf longer.toList

/-- Whether a token of this terminal ends before the character. -/
def Terminal.stopsBefore (terminal : Terminal) (c : Char) : Bool :=
  if terminal.isWord then !Pattern.isWordMark c else !terminal.goesOn c

/-- Whether the terminal is that of a word, or of an operator without a slash. -/
def Terminal.isPlain (terminal : Terminal) : Bool :=
  terminal.isWord ||
    terminal ∈ operators && terminal.spelling?.all fun spelling => '/' ∉ spelling.toList

namespace Pattern

/-- Where a character begins one pattern only, that pattern is taken if it fits. -/
theorem first?_eq_some_of_begins {c : Char} {rest : List Char} {pattern : Pattern} {n : Nat}
    (hmem : pattern ∈ order) (honly : ∀ other ∈ order, other.begins c → other = pattern)
    (hfits : pattern.length? (c :: rest) = some n) : first? (c :: rest) = some (pattern, n) := by
  cases hfirst : first? (c :: rest) with
  | none =>
    rw [first?_eq_none_iff.mp hfirst pattern hmem] at hfits
    cases hfits
  | some found =>
    obtain ⟨taken, m⟩ := found
    obtain ⟨htaken, hm⟩ := length?_of_first? hfirst
    obtain rfl := honly taken htaken (begins_of_length? hm)
    rw [hfits] at hm
    rw [Option.some.inj hm]

/-- A word ends where no letter, digit or underscore follows. -/
theorem first?_word_append {text rest : List Char} (h : first? text = some (.word, text.length))
    (hrest : ∀ c ∈ rest.head?, isWordMark c = false) :
    first? (text ++ rest) = some (.word, text.length) := by
  have hfits : wordLength? (text ++ []) = some text.length := by
    rw [List.append_nil]
    exact (length?_of_first? h).2
  have hlonger := wordLength?_append hrest hfits
  cases text with
  | nil => exact absurd (wordLength?_bounds hfits).1 (Nat.lt_irrefl 0)
  | cons c text =>
    have hstarts : startsWord c := begins_of_length? (length?_of_first? h).2
    exact first?_eq_some_of_begins (by decide) (eq_word_of_begins hstarts) hlonger

/-- Different operators are spelled differently. -/
theorem eq_of_spelling?_eq : ∀ terminal ∈ Terminal.operators, ∀ other ∈ Terminal.operators,
    terminal.spelling? = other.spelling? → terminal = other := by
  decide +kernel

/-- An operator ends where no other operator goes on. The slash is left out, since a comment can
begin with it. -/
theorem first?_operator_append {terminal : Terminal} {spelling : String} {rest : List Char}
    (hmem : terminal ∈ Terminal.operators) (hspelling : terminal.spelling? = some spelling)
    (hslash : '/' ∉ spelling.toList) (hrest : ∀ c ∈ rest.head?, terminal.goesOn c = false) :
    first? (spelling.toList ++ rest) = some (.operator terminal, spelling.toList.length) := by
  have hfits : (Pattern.operator terminal).length? (spelling.toList ++ rest) =
      some spelling.toList.length :=
    spellingLength?_eq_some_iff.mpr ⟨spelling, hspelling, List.prefix_append _ _, rfl⟩
  have horder : .operator terminal ∈ order := operator_mem_order_iff.mpr hmem
  cases hfirst : first? (spelling.toList ++ rest) with
  | none =>
    rw [first?_eq_none_iff.mp hfirst _ horder] at hfits
    cases hfits
  | some found =>
    obtain ⟨taken, n⟩ := found
    obtain ⟨htaken, hn⟩ := length?_of_first? hfirst
    have hle := length?_le_of_first? hfirst horder hfits
    obtain ⟨c, tail, hchars⟩ := List.exists_cons_of_length_pos (length?_bounds hfits).1
    have hc : c ∈ spelling.toList := hchars ▸ List.mem_cons_self
    have hcharacter := mem_operatorCharacters hmem hspelling hc
    have hbegins : taken.begins c := by
      apply begins_of_length?
      rwa [hchars] at hn
    obtain ⟨other, hother, rfl⟩ :=
      exists_operator_of_begins hcharacter (fun heq => hslash (heq ▸ hc)) htaken hbegins
    obtain ⟨longer, hlonger, hprefix, rfl⟩ := spellingLength?_eq_some_iff.mp hn
    obtain ⟨more, hmore⟩ :=
      List.prefix_of_prefix_length_le (List.prefix_append spelling.toList rest) hprefix hle
    cases more with
    | nil =>
      rw [List.append_nil, String.toList_inj] at hmore
      subst hmore
      rw [eq_of_spelling?_eq other hother terminal hmem (hlonger.trans hspelling.symm)]
    | cons d more =>
      rw [← hmore, List.prefix_append_right_inj] at hprefix
      obtain ⟨after, rfl⟩ := hprefix
      have hstop := hrest d rfl
      have hgoesOn : terminal.goesOn d := by
        simp only [Terminal.goesOn, List.any_eq_true, Option.any_eq_true]
        refine ⟨other, hother, longer, hlonger, spelling, hspelling, ?_⟩
        rw [List.isPrefixOf_iff_prefix, ← hmore, List.prefix_append_right_inj]
        exact ⟨more, rfl⟩
      rw [hstop] at hgoesOn
      cases hgoesOn

end Pattern

/-! ## Reading -/

/-- A text is read, wherever it stands, as tokens of these terminals and texts, without a stray. -/
def ReadsAs (cs : List Char) (shapes : List (Terminal × List Char)) : Prop :=
  ∀ base cursor, ∃ found, lexStretch base cursor cs = (found, none) ∧
    found.map Lexeme.shape = shapes

namespace ReadsAs

/-- The empty text has no tokens. -/
theorem nil : ReadsAs [] [] := by
  intro base cursor
  exact ⟨[], by rw [lexStretch], rfl⟩

/-- What the first pattern that fits takes is the first token, and the rest is read as before. -/
theorem token {text rest : List Char} {pattern : Pattern} {terminal : Terminal}
    {shapes : List (Terminal × List Char)}
    (hfits : Pattern.first? (text ++ rest) = some (pattern, text.length))
    (hterminal : pattern.terminal? text = some terminal) (hrest : ReadsAs rest shapes) :
    ReadsAs (text ++ rest) ((terminal, text) :: shapes) := by
  intro base cursor
  obtain ⟨found, hfound, hshapes⟩ := hrest base (cursor.after text)
  refine ⟨⟨terminal, text, cursor.absolute base⟩ :: found, ?_, ?_⟩
  · rw [lexStretch_append base cursor hfits, hfound, hterminal]
    rfl
  · rw [List.map_cons, hshapes]
    rfl

/-- A blank is no token. -/
theorem blank {c : Char} {rest : List Char} {shapes : List (Terminal × List Char)}
    (hc : Pattern.isBlank c) (hrest : ReadsAs rest shapes) : ReadsAs (c :: rest) shapes := by
  intro base cursor
  rw [lexStretch_blank hc]
  exact hrest base (cursor.after [c])

/-- A word is one token where no character of a word follows. -/
theorem word {terminal : Terminal} {text rest : List Char} {shapes : List (Terminal × List Char)}
    (hrest : ReadsAs rest shapes) (h : Pattern.first? text = some (.word, text.length))
    (hterminal : Terminal.ofWord text = terminal)
    (hnext : ∀ c ∈ rest.head?, Pattern.isWordMark c = false) :
    ReadsAs (text ++ rest) ((terminal, text) :: shapes) :=
  hrest.token (Pattern.first?_word_append h hnext) (congrArg some hterminal)

/-- An operator is one token where no longer operator goes on. -/
theorem operator {terminal : Terminal} {spelling : String} {rest : List Char}
    {shapes : List (Terminal × List Char)} (hrest : ReadsAs rest shapes)
    (hmem : terminal ∈ Terminal.operators) (hspelling : terminal.spelling? = some spelling)
    (hslash : '/' ∉ spelling.toList) (hnext : ∀ c ∈ rest.head?, terminal.goesOn c = false) :
    ReadsAs (spelling.toList ++ rest) ((terminal, spelling.toList) :: shapes) :=
  hrest.token (Pattern.first?_operator_append hmem hspelling hslash hnext) rfl

end ReadsAs

/-! ## Written tokens -/

/-- A token as it is written: its text, read alone, is one token of its terminal. -/
structure WrittenToken where
  terminal : Terminal
  text : List Char
  reads : ∃ pattern : Pattern, Pattern.first? text = some (pattern, text.length) ∧
    pattern.terminal? text = some terminal

namespace WrittenToken

/-- What a written token is read as. -/
def shape (token : WrittenToken) : Terminal × List Char := (token.terminal, token.text)

variable (token : WrittenToken)

/-- A written token has characters. -/
theorem text_ne_nil : token.text ≠ [] := by
  obtain ⟨pattern, hfits, -⟩ := token.reads
  exact List.ne_nil_of_length_pos (Pattern.pos_of_first? hfits)

/-- The text of a written token, read alone, is that one token. -/
theorem standsAlone : Lexeme.StandsAlone ⟨token.terminal, token.text, .start⟩ := by
  obtain ⟨pattern, hfits, hterminal⟩ := token.reads
  refine ⟨pattern, hterminal, fun rest hrest => ?_⟩
  apply Pattern.first?_append hrest
  · rw [hterminal]
    rfl
  · rw [List.append_nil]
    exact hfits

/-- A written token of a terminal with a spelling is written so. -/
theorem text_eq_of_spelling? {spelling : String} (h : token.terminal.spelling? = some spelling) :
    token.text = spelling.toList :=
  token.standsAlone.text_eq h

/-- A written word is what the pattern of words takes. -/
theorem first?_of_isWord (h : token.terminal.isWord) :
    Pattern.first? token.text = some (.word, token.text.length) ∧
      Pattern.word.terminal? token.text = some token.terminal := by
  obtain ⟨pattern, hfits, hterminal⟩ := token.reads
  have hwhole : Pattern.first? (token.text ++ []) = some (pattern, token.text.length) := by
    rw [List.append_nil]
    exact hfits
  obtain rfl := (Pattern.isWord_iff_eq_word hwhole hterminal).mp h
  exact ⟨hfits, hterminal⟩

/-- A written word begins with a character that can begin a word. -/
theorem startsWord_of_isWord (h : token.terminal.isWord) :
    ∀ c ∈ token.text.head?, Pattern.startsWord c := by
  obtain ⟨hfits, -⟩ := token.first?_of_isWord h
  cases htext : token.text with
  | nil => exact nofun
  | cons c text =>
    rintro d hd
    obtain rfl := Option.some.inj hd
    rw [htext] at hfits
    exact Pattern.begins_of_length? (Pattern.length?_of_first? hfits).2

section Reading

variable {rest : List Char} {shapes : List (Terminal × List Char)}

/-- A written token is read before a blank. -/
theorem readsAs_of_startsBlank (hblank : StartsBlank rest) (hrest : ReadsAs rest shapes) :
    ReadsAs (token.text ++ rest) (token.shape :: shapes) := by
  obtain ⟨pattern, hterminal, hfits⟩ := token.standsAlone
  exact hrest.token (hfits rest hblank) hterminal

/-- A written word or operator is read before a character at which it stops. -/
theorem readsAs_of_stopsBefore (hplain : token.terminal.isPlain)
    (hstops : ∀ c ∈ rest.head?, token.terminal.stopsBefore c) (hrest : ReadsAs rest shapes) :
    ReadsAs (token.text ++ rest) (token.shape :: shapes) := by
  cases hword : token.terminal.isWord with
  | true =>
    obtain ⟨hfits, hterminal⟩ := token.first?_of_isWord hword
    apply hrest.word hfits (Option.some.inj hterminal)
    intro c hc
    simpa [Terminal.stopsBefore, hword] using hstops c hc
  | false =>
    rw [Terminal.isPlain, hword, Bool.false_or, Bool.and_eq_true, decide_eq_true_eq] at hplain
    obtain ⟨hmem, hslash⟩ := hplain
    have hspelled : ∀ terminal ∈ Terminal.operators, terminal.spelling?.isSome := by decide
    obtain ⟨spelling, hspelling⟩ := Option.isSome_iff_exists.mp (hspelled _ hmem)
    rw [hspelling, Option.all_some, decide_eq_true_eq] at hslash
    rw [shape, token.text_eq_of_spelling? hspelling]
    apply hrest.operator hmem hspelling hslash
    intro c hc
    simpa [Terminal.stopsBefore, hword] using hstops c hc

end Reading

end WrittenToken

end CrateAnalysis
