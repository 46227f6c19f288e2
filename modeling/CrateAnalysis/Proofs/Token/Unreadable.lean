import CrateAnalysis.Proofs.Token.Longest
import Mathlib.Data.List.Induction
import Mathlib.Data.List.Nodup

/-!
# Where no token begins

Lexing reports a character where no pattern fits. `Unreadable` says where that is without reference
to patterns: at a double quote without a closing one on its line, at a single quote that begins no
character, and at a character that the language does not use. Every other character begins
something; a newline is a blank, and the mark of a block comment that is never closed is read as
two operators.
-/

set_option autoImplicit false

namespace CrateAnalysis

/-! ## Places that cannot be read -/

/-- What can follow the opening quote of a string: a body on one line and the closing quote, before
which the body ends in a run of an even number of backslashes. -/
def ClosesString (rest : List Char) : Prop :=
  ∃ body after, rest = body ++ '"' :: after ∧ '\n' ∉ body ∧
    (body.reverse.takeWhile (· = '\\')).length % 2 = 0

/-- What can follow the opening quote of a character: a backslash and a character that is no
newline, or one character that is no quote and no backslash, and then the closing quote. -/
def ClosesCharacter (rest : List Char) : Prop :=
  (∃ c after, rest = '\\' :: c :: '\'' :: after ∧ c ≠ '\n') ∨
    ∃ c after, rest = c :: '\'' :: after ∧ c ≠ '\'' ∧ c ≠ '\\'

/-- The characters of operators and punctuation. -/
def operatorCharacters : List Char := "<>=+-*/%!&|^?:;,.()\x7b\x7d[]".toList

/-- A text at whose beginning nothing can be read. -/
inductive Unreadable : List Char → Prop
  | doubleQuote {rest : List Char} : ¬ ClosesString rest → Unreadable ('"' :: rest)
  | singleQuote {rest : List Char} : ¬ ClosesCharacter rest → Unreadable ('\'' :: rest)
  | other {c : Char} {rest : List Char} : c ≠ '"' → c ≠ '\'' → c.isAlpha = false →
      c.isDigit = false → c ≠ '_' → c ∉ [' ', '\t', '\x0c', '\r', '\n'] →
      c ∉ operatorCharacters → Unreadable (c :: rest)

namespace Pattern

/-! ## Strings -/

/-- Whether the run of backslashes at the end of a text is odd, if the run before the text was odd
or not. -/
def oddRun : Bool → List Char → Bool
  | odd, [] => odd
  | odd, c :: cs => oddRun (decide (c = '\\') && !odd) cs

/-- The run at the end of two texts is the one of the second, after that of the first. -/
theorem oddRun_append (odd : Bool) (first second : List Char) :
    oddRun odd (first ++ second) = oddRun (oddRun odd first) second := by
  induction first generalizing odd with
  | nil => rfl
  | cons c first ih => rw [List.cons_append, oddRun, oddRun, ih]

/-- A run is made longer by a backslash and ended by every other character. -/
theorem oddRun_append_singleton (odd : Bool) (cs : List Char) (c : Char) :
    oddRun odd (cs ++ [c]) = (decide (c = '\\') && !oddRun odd cs) := by
  simp [oddRun_append, oddRun]

/-- A run of backslashes is odd exactly if their number is. -/
theorem oddRun_eq (cs : List Char) :
    oddRun false cs = decide ((cs.reverse.takeWhile (· = '\\')).length % 2 = 1) := by
  induction cs using List.reverseRecOn with
  | nil => rfl
  | append_singleton cs c ih =>
    rw [oddRun_append_singleton, ih, List.reverse_append, List.reverse_singleton,
      List.singleton_append, List.takeWhile_cons]
    by_cases hc : c = '\\'
    · simp only [hc, decide_true, if_true, List.length_cons, Bool.true_and]
      rw [← decide_not, decide_eq_decide]
      omega
    · simp [hc]

/-- The reader of a string finds a closing quote exactly if there is a body before one. -/
theorem isSome_stringTail?_iff {odd : Bool} {cs : List Char} :
    (stringTail? odd cs).isSome ↔
      ∃ body after, cs = body ++ '"' :: after ∧ '\n' ∉ body ∧ oddRun odd body = false := by
  constructor
  · intro h
    induction cs generalizing odd with
    | nil => cases h
    | cons c cs ih =>
      by_cases hline : c = '\n'
      · rw [stringTail?, if_pos hline] at h
        cases h
      · by_cases hquote : c = '"' → odd = true
        · rw [stringTail?_cons hline hquote, Option.isSome_map] at h
          obtain ⟨body, after, rfl, hbody, hrun⟩ := ih h
          refine ⟨c :: body, after, rfl, ?_, hrun⟩
          rw [List.mem_cons, not_or]
          exact ⟨fun heq => hline heq.symm, hbody⟩
        · rw [Classical.not_imp, Bool.not_eq_true] at hquote
          obtain ⟨rfl, rfl⟩ := hquote
          exact ⟨[], cs, rfl, List.not_mem_nil, rfl⟩
  · rintro ⟨body, after, rfl, hbody, hrun⟩
    induction body generalizing odd with
    | nil =>
      obtain rfl : odd = false := hrun
      rfl
    | cons c body ih =>
      rw [List.mem_cons, not_or] at hbody
      have hline : c ≠ '\n' := fun heq => hbody.1 heq.symm
      by_cases hquote : c = '"' → odd = true
      · rw [List.cons_append, stringTail?_cons hline hquote, Option.isSome_map]
        exact ih hbody.2 hrun
      · rw [Classical.not_imp, Bool.not_eq_true] at hquote
        obtain ⟨rfl, rfl⟩ := hquote
        rfl

/-- A double quote begins no string just if nothing closes it. -/
theorem stringLength?_eq_none_iff (rest : List Char) :
    stringLength? ('"' :: rest) = none ↔ ¬ ClosesString rest := by
  have hparity : ∀ n : Nat, decide (n % 2 = 1) = false ↔ n % 2 = 0 := by
    intro n
    rw [decide_eq_false_iff_not]
    omega
  rw [stringLength?, Option.map_eq_none_iff, ← Option.not_isSome_iff_eq_none,
    isSome_stringTail?_iff, ClosesString]
  simp only [oddRun_eq, hparity]

/-! ## Characters -/

/-- A single quote begins no character just if nothing closes it. -/
theorem characterLength?_eq_none_iff (rest : List Char) :
    characterLength? ('\'' :: rest) = none ↔ ¬ ClosesCharacter rest := by
  unfold characterLength?
  split
  next c after heq =>
    obtain ⟨-, rfl⟩ := List.cons.inj heq
    by_cases hc : c = '\n'
    · simp [ClosesCharacter, hc]
    · simp [ClosesCharacter, hc]
  next c after hescape heq =>
    obtain ⟨-, rfl⟩ := List.cons.inj heq
    -- what would be an escape is read as one in the case before
    have hcloses : ClosesCharacter (c :: '\'' :: after) ↔ c ≠ '\'' ∧ c ≠ '\\' := by
      constructor
      · rintro (⟨d, rest, heq, -⟩ | ⟨d, rest, heq, hd⟩)
        · obtain ⟨rfl, htail⟩ := List.cons.inj heq
          obtain ⟨rfl, rfl⟩ := List.cons.inj htail
          exact (hescape _ rfl rfl).elim
        · obtain ⟨rfl, -⟩ := List.cons.inj heq
          exact hd
      · intro hc
        exact .inr ⟨c, after, rfl, hc⟩
    rw [hcloses, ← not_or]
    simp
  next hescape hplain =>
    refine ⟨fun _ => ?_, fun _ => rfl⟩
    rintro (⟨c, after, rfl, -⟩ | ⟨c, after, rfl, -, -⟩)
    · exact hescape c after rfl
    · exact hplain c after rfl

/-! ## Where no pattern fits -/

/-- No pattern is found just if none fits. -/
theorem first?_eq_none_iff {cs : List Char} :
    first? cs = none ↔ ∀ pattern ∈ order, pattern.length? cs = none := by
  simp only [first?, List.findSome?_eq_none_iff, Option.map_eq_none_iff]

/-- Where a character begins one pattern only, everything depends on that pattern. -/
theorem first?_eq_none_iff_of_begins {c : Char} {pattern : Pattern} (hmem : pattern ∈ order)
    (honly : ∀ other ∈ order, other.begins c → other = pattern) (rest : List Char) :
    first? (c :: rest) = none ↔ pattern.length? (c :: rest) = none := by
  rw [first?_eq_none_iff]
  constructor
  · intro h
    exact h pattern hmem
  · intro h other hother
    by_cases hbegins : other.begins c
    · rw [honly other hother hbegins]
      exact h
    · exact length?_eq_none_of_begins (Bool.not_eq_true _ ▸ hbegins) rest

/-- Every operator is written with the characters of operators, and each of these is an operator of
its own. -/
theorem mem_operatorCharacters {terminal : Terminal} (hmem : terminal ∈ Terminal.operators)
    {spelling : String} (hspelling : terminal.spelling? = some spelling) {c : Char}
    (hc : c ∈ spelling.toList) : c ∈ operatorCharacters := by
  have hall : ∀ terminal ∈ Terminal.operators, ∀ spelling ∈ terminal.spelling?,
      spelling.toList.all (· ∈ operatorCharacters) := by
    decide +kernel
  exact of_decide_eq_true (List.all_eq_true.mp (hall terminal hmem spelling hspelling) c hc)

/-- Every character of operators is an operator by itself. -/
theorem exists_operator_of_mem_operatorCharacters {c : Char} (hc : c ∈ operatorCharacters) :
    ∃ terminal ∈ Terminal.operators, terminal.spelling? = some (String.singleton c) := by
  have hall : operatorCharacters.all fun c =>
      Terminal.operators.any (·.spelling? = some (String.singleton c)) := by
    decide +kernel
  obtain ⟨terminal, hmem, hspelling⟩ := List.any_eq_true.mp (List.all_eq_true.mp hall c hc)
  exact ⟨terminal, hmem, of_decide_eq_true hspelling⟩

/-- Apart from the slash, the characters of operators begin nothing but operators. -/
theorem exists_operator_of_begins {c : Char} (hc : c ∈ operatorCharacters) (hslash : c ≠ '/')
    {pattern : Pattern} (hmem : pattern ∈ order) (hbegins : pattern.begins c) :
    ∃ terminal ∈ Terminal.operators, pattern = .operator terminal := by
  have hall : operatorCharacters.all fun c => c = '/' ||
      order.all fun pattern => !pattern.begins c || pattern ∈ Terminal.operators.map .operator := by
    decide +kernel
  have hpattern := List.all_eq_true.mp hall c hc
  rw [decide_eq_false hslash, Bool.false_or] at hpattern
  have hoperator := List.all_eq_true.mp hpattern pattern hmem
  rw [hbegins, Bool.not_true, Bool.false_or, decide_eq_true_eq, List.mem_map] at hoperator
  obtain ⟨terminal, hterminal, rfl⟩ := hoperator
  exact ⟨terminal, hterminal, rfl⟩

/-- No pattern begins with a character that the language does not use. -/
theorem begins_eq_false {c : Char} (hdouble : c ≠ '"') (hsingle : c ≠ '\'')
    (hletter : c.isAlpha = false) (hdigit : c.isDigit = false) (hunderscore : c ≠ '_')
    (hblank : c ∉ [' ', '\t', '\x0c', '\r', '\n']) (hoperator : c ∉ operatorCharacters) :
    ∀ pattern ∈ order, pattern.begins c = false := by
  have hslash : c ≠ '/' := by
    rintro rfl
    exact hoperator (by decide)
  intro pattern hmem
  cases pattern with
  | float | integer => exact hdigit
  | word => simp [begins, startsWord, hletter, hunderscore]
  | string => simp [begins, hdouble]
  | character => simp [begins, hsingle]
  | blockComment | lineComment => simp [begins, hslash]
  | blank => simpa [begins, isBlank, and_assoc] using hblank
  | operator terminal =>
    cases hspelling : terminal.spelling? with
    | none => simp [begins, hspelling]
    | some spelling =>
      have hhead : spelling.toList.head? ≠ some c := by
        intro heq
        exact hoperator (mem_operatorCharacters (operator_mem_order_iff.mp hmem) hspelling
          (List.mem_of_head? heq))
      simp [begins, hspelling, hhead]

/-- No pattern fits exactly where nothing can be read. -/
theorem first?_eq_none_iff_unreadable {c : Char} {rest : List Char} :
    first? (c :: rest) = none ↔ Unreadable (c :: rest) := by
  have hdouble : ∀ rest, first? ('"' :: rest) = none ↔ ¬ ClosesString rest := by
    intro rest
    rw [first?_eq_none_iff_of_begins (by decide) eq_string_of_begins]
    exact stringLength?_eq_none_iff rest
  have hsingle : ∀ rest, first? ('\'' :: rest) = none ↔ ¬ ClosesCharacter rest := by
    intro rest
    rw [first?_eq_none_iff_of_begins (by decide) eq_character_of_begins]
    exact characterLength?_eq_none_iff rest
  constructor
  · intro h
    have hfits : ∀ pattern ∈ order, pattern.length? (c :: rest) = none := first?_eq_none_iff.mp h
    by_cases hdoubleQuote : c = '"'
    · subst hdoubleQuote
      exact .doubleQuote ((hdouble rest).mp h)
    by_cases hsingleQuote : c = '\''
    · subst hsingleQuote
      exact .singleQuote ((hsingle rest).mp h)
    have hword : startsWord c = false := by
      simpa [length?, wordLength?] using hfits .word (by decide)
    rw [startsWord, Bool.or_eq_false_iff, decide_eq_false_iff_not] at hword
    refine .other hdoubleQuote hsingleQuote hword.1 ?_ hword.2 ?_ ?_
    · simpa [length?, integerLength?, digits?] using hfits .integer (by decide)
    · intro hblank
      have htaken : isBlank c := by simpa [isBlank, or_assoc] using hblank
      rw [first?_blank htaken] at h
      cases h
    · intro hoperator
      obtain ⟨terminal, hmem, hspelling⟩ := exists_operator_of_mem_operatorCharacters hoperator
      have htaken : (Pattern.operator terminal).length? (c :: rest) = some 1 :=
        spellingLength?_eq_some_iff.mpr ⟨_, hspelling, by simp, by simp⟩
      rw [hfits (.operator terminal) (operator_mem_order_iff.mpr hmem)] at htaken
      cases htaken
  · intro h
    cases h with
    | doubleQuote hcloses => exact (hdouble rest).mpr hcloses
    | singleQuote hcloses => exact (hsingle rest).mpr hcloses
    | other hdouble hsingle hletter hdigit hunderscore hblank hoperator =>
      have hbegins := begins_eq_false hdouble hsingle hletter hdigit hunderscore hblank hoperator
      rw [first?_eq_none_iff]
      intro pattern hmem
      exact length?_eq_none_of_begins (hbegins pattern hmem) rest

/-! ## Comments that are never closed -/

/-- The slash of an unclosed comment mark is an operator. -/
theorem first?_openComment {rest : List Char} (h : ¬ ['*', '/'] <:+: rest) :
    first? ('/' :: '*' :: rest) = some (.operator .slash, 1) := by
  have hslash : (Pattern.operator .slash).length? ('/' :: '*' :: rest) = some 1 :=
    spellingLength?_eq_some_iff.mpr ⟨"/", rfl, by simp, rfl⟩
  cases hfirst : first? ('/' :: '*' :: rest) with
  | none =>
    rw [first?_eq_none_iff.mp hfirst (.operator .slash) (by decide)] at hslash
    cases hslash
  | some found =>
    obtain ⟨taken, n⟩ := found
    obtain ⟨hmem, hn⟩ := length?_of_first? hfirst
    rcases slash_of_begins taken hmem (begins_of_length? hn) with rfl | rfl | rfl | rfl
    · obtain ⟨m, hm, -⟩ := Option.map_eq_some_iff.mp hn
      obtain ⟨body, after, rfl, -⟩ := eq_append_of_blockCommentTail? hm
      exact absurd ⟨body, after, by simp⟩ h
    · simp [length?, lineCommentLength?] at hn
    · rw [hslash] at hn
      obtain rfl := Option.some.inj hn
      rfl
    · obtain ⟨spelled, hspelled, hfits, -⟩ := spellingLength?_eq_some_iff.mp hn
      obtain rfl := Option.some.inj hspelled
      simp at hfits

/-- A star is an operator or begins one. -/
theorem exists_first?_star (rest : List Char) :
    ∃ terminal n, first? ('*' :: rest) = some (.operator terminal, n) := by
  cases hfirst : first? ('*' :: rest) with
  | none =>
    have hunreadable := first?_eq_none_iff_unreadable.mp hfirst
    cases hunreadable with
    | other _ _ _ _ _ _ hoperator => exact absurd (by decide) hoperator
  | some found =>
    obtain ⟨taken, n⟩ := found
    obtain ⟨hmem, hn⟩ := length?_of_first? hfirst
    have hbegins := begins_of_length? hn
    obtain ⟨terminal, -, rfl⟩ :=
      exists_operator_of_begins (by decide) (by decide) hmem hbegins
    exact ⟨terminal, n, rfl⟩

end Pattern

/-! ## What is reported -/

/-- The message of a stray tells its place and its character. -/
theorem Diagnostic.unrecognisedCharacter_inj {p q : Position} {c d : Char}
    (h : unrecognisedCharacter p c = unrecognisedCharacter q d) : p = q ∧ c = d := by
  obtain ⟨hposition, hmessage⟩ := Diagnostic.mk.inj h
  refine ⟨hposition, ?_⟩
  have hchars := congrArg String.toList hmessage
  simpa using hchars

/-- At a place where nothing can be read the scan finds a stray. -/
theorem eq_stray_of_unreadable {code : List Char} {earlier later : List (Segment × Position)}
    {c : Char} {rest : List Char} (h : scan .start [] code = earlier ++ later)
    (htext : textOf later = c :: rest) (hunreadable : Unreadable (c :: rest)) :
    ∃ more, later = (.stray c, endPosition (textOf earlier)) :: more := by
  obtain ⟨behind, hlater⟩ := exists_eq_scan h
  rw [htext, scan_stray _ _ (Pattern.first?_eq_none_iff_unreadable.mpr hunreadable)] at hlater
  exact ⟨_, hlater⟩

/-- What is reported are the characters at the places of the scan where nothing can be read. -/
theorem mem_diagnostics_iff {code : String} {diagnostic : Diagnostic} :
    diagnostic ∈ (tokenize code).diagnostics ↔
      ∃ earlier later c rest, scan .start [] code.toList = earlier ++ later ∧
        textOf later = c :: rest ∧ Unreadable (c :: rest) ∧
        diagnostic = .unrecognisedCharacter (endPosition (textOf earlier)) c := by
  rw [diagnostics_tokenize]
  constructor
  · intro h
    obtain ⟨⟨segment, place⟩, hmem, hdiagnostic⟩ := List.mem_filterMap.mp h
    obtain ⟨earlier, later, hscan⟩ := List.append_of_mem hmem
    obtain ⟨hplace, ⟨c, rfl, hnone⟩ | ⟨pattern, hsegment, -⟩⟩ := eq_of_scan_eq_append hscan
    · refine ⟨earlier, _, c, textOf later, hscan, rfl, ?_, ?_⟩
      · exact Pattern.first?_eq_none_iff_unreadable.mp hnone
      · rw [← hplace]
        exact (Option.some.inj hdiagnostic).symm
    · rw [hsegment, Pattern.diagnostic?_segment] at hdiagnostic
      cases hdiagnostic
  · rintro ⟨earlier, later, c, rest, hscan, htext, hunreadable, rfl⟩
    obtain ⟨more, rfl⟩ := eq_stray_of_unreadable hscan htext hunreadable
    rw [hscan, List.mem_filterMap]
    exact ⟨_, List.mem_append_right _ List.mem_cons_self, rfl⟩

/-- Every segment of a scan stands where some of the text ends. -/
theorem exists_of_mem_scan {before behind cs : List Char} {segment : Segment × Position}
    (h : segment ∈ scan (endPosition before) behind cs) :
    ∃ read, segment.2 = endPosition (before ++ read) := by
  obtain ⟨earlier, later, hscan⟩ := List.append_of_mem h
  obtain ⟨-, hplace, -⟩ := eq_of_scan_eq_cons (eq_scan_of_append hscan).symm
  rw [foldl_advance_endPosition] at hplace
  exact ⟨textOf earlier, hplace⟩

/-- What is scanned after some text stands after the beginning of that text. -/
theorem before_of_mem_scan {before text behind rest : List Char} (hne : text ≠ [])
    {segment : Segment × Position} (h : segment ∈ scan (endPosition (before ++ text)) behind rest) :
    (endPosition before).Before segment.2 := by
  obtain ⟨read, hplace⟩ := exists_of_mem_scan h
  rw [hplace, List.append_assoc]
  exact endPosition_before before (List.append_ne_nil_of_left_ne_nil hne read)

/-- The segments of a scan stand one after another. -/
theorem pairwise_before_scan (before behind cs : List Char) :
    (scan (endPosition before) behind cs).Pairwise fun p q => p.2.Before q.2 := by
  induction cs using scanInduction generalizing before behind with
  | nil =>
    rw [scan_nil]
    exact .nil
  | take pattern text rest hfits ih =>
    have hpos := Pattern.pos_of_first? hfits
    rw [scan_take _ behind hfits, foldl_advance_endPosition, List.pairwise_cons]
    refine ⟨fun segment hmem => ?_, ih _ _⟩
    exact before_of_mem_scan (List.ne_nil_of_length_pos hpos) hmem
  | stray c rest hnone ih =>
    rw [scan_stray _ behind hnone, ← endPosition_append_singleton, List.pairwise_cons]
    refine ⟨fun segment hmem => ?_, ih _ _⟩
    exact before_of_mem_scan (List.cons_ne_nil c []) hmem

/-- A diagnostic has the position of its segment. -/
theorem position_of_diagnostic? {segment : Segment × Position} {diagnostic : Diagnostic}
    (h : Segment.diagnostic? segment = some diagnostic) : diagnostic.position = segment.2 := by
  obtain ⟨segment, place⟩ := segment
  cases segment with
  | stray c =>
    obtain rfl := Option.some.inj h
    rfl
  | token | layout => cases h

/-- Nothing is reported twice. -/
theorem nodup_diagnostics (code : String) : (tokenize code).diagnostics.Nodup := by
  rw [diagnostics_tokenize]
  apply (pairwise_before_scan [] [] code.toList).filterMap
  intro p q hbefore d hd e he heq
  rw [← position_of_diagnostic? hd, ← position_of_diagnostic? he, heq] at hbefore
  exact hbefore.asymm hbefore

/-- What cannot be read is reported exactly once. -/
theorem count_diagnostics_eq_one {code : String} {earlier later : List (Segment × Position)}
    {c : Char} {rest : List Char} (hscan : scan .start [] code.toList = earlier ++ later)
    (htext : textOf later = c :: rest) (hunreadable : Unreadable (c :: rest)) :
    (tokenize code).diagnostics.count (.unrecognisedCharacter (endPosition (textOf earlier)) c) =
      1 := by
  apply List.count_eq_one_of_mem (nodup_diagnostics code)
  exact mem_diagnostics_iff.mpr ⟨earlier, later, c, rest, hscan, htext, hunreadable, rfl⟩

/-- A newline can always be read. -/
theorem not_unreadable_newline (rest : List Char) : ¬ Unreadable ('\n' :: rest) := by
  rw [← Pattern.first?_eq_none_iff_unreadable, Pattern.first?_blank (by decide)]
  simp

/-- No newline is reported. -/
theorem newline_not_mem_diagnostics (code : String) (position : Position) :
    .unrecognisedCharacter position '\n' ∉ (tokenize code).diagnostics := by
  intro h
  obtain ⟨earlier, later, c, rest, -, -, hunreadable, heq⟩ := mem_diagnostics_iff.mp h
  obtain ⟨-, rfl⟩ := Diagnostic.unrecognisedCharacter_inj heq
  exact not_unreadable_newline rest hunreadable

/-- A stretch stops where nothing can be read. -/
theorem unreadable_of_lexStretch {base : Position} {cursor : Cursor} {cs later : List Char}
    {lexemes : List Lexeme} {stray : Stray}
    (h : lexStretch base cursor cs = (lexemes, some (stray, later))) :
    Unreadable (stray.char :: later) := by
  induction cs using scanInduction generalizing cursor lexemes with
  | nil =>
    rw [lexStretch] at h
    cases h
  | take pattern text rest hfits ih =>
    rw [lexStretch_append base cursor hfits] at h
    exact ih (Prod.ext rfl (Prod.mk.inj h).2)
  | stray c rest hnone =>
    rw [lexStretch, hnone] at h
    obtain ⟨-, hstop⟩ := Prod.mk.inj h
    obtain ⟨rfl, rfl⟩ := Prod.mk.inj (Option.some.inj hstop)
    exact Pattern.first?_eq_none_iff_unreadable.mp hnone

namespace Recovery

/-- A round that does not reach the end of the text goes on at the next column of the line of its
stray, which is no newline. -/
theorem base_of_round {code : List Char} {state next : Recovery}
    (h : state.round code = .inr next) :
    ∃ stray : Stray, stray.char ≠ '\n' ∧
      next.diagnostics = state.diagnostics ++ [stray.diagnostic] ∧
      next.base = ⟨stray.position.line, stray.position.column + 1⟩ := by
  unfold round at h
  split at h
  next => cases h
  next lexemes stray later hstretch =>
    obtain rfl := Sum.inr.inj h
    have hchar : stray.char ≠ '\n' := by
      intro heq
      have hunreadable := unreadable_of_lexStretch hstretch
      rw [heq] at hunreadable
      exact not_unreadable_newline later hunreadable
    refine ⟨stray, hchar, rfl, ?_⟩
    rw [Position.advance, if_neg hchar]

end Recovery

/-- The mark of a comment that is never closed is scanned as a slash and an operator that begins
with the star. -/
theorem scan_openComment {code : List Char} {earlier later : List (Segment × Position)}
    {rest : List Char} (hscan : scan .start [] code = earlier ++ later)
    (htext : textOf later = '/' :: '*' :: rest) (hopen : ¬ ['*', '/'] <:+: rest) :
    ∃ terminal text place more, text.head? = some '*' ∧
      later = (.token .slash ['/'], endPosition (textOf earlier)) ::
        (.token terminal text, place) :: more := by
  obtain ⟨behind, hlater⟩ := exists_eq_scan hscan
  have hslash : Pattern.first? (['/'] ++ '*' :: rest) = some (.operator .slash, ['/'].length) :=
    Pattern.first?_openComment hopen
  rw [htext, show '/' :: '*' :: rest = ['/'] ++ '*' :: rest from rfl,
    scan_take _ _ hslash] at hlater
  obtain ⟨terminal, n, hstar⟩ := Pattern.exists_first?_star rest
  generalize hafter : scan _ _ ('*' :: rest) = after at hlater
  cases after with
  | nil =>
    have hlost := congrArg textOf hafter
    rw [textOf_scan] at hlost
    cases hlost
  | cons segment more =>
    obtain ⟨segment, place⟩ := segment
    obtain ⟨hwhole, -, ⟨c, -, hnone⟩ | ⟨pattern, hsegment, hfits⟩⟩ := eq_of_scan_eq_cons hafter
    · rw [hstar] at hnone
      cases hnone
    · rw [hstar] at hfits
      obtain ⟨rfl, rfl⟩ := Prod.mk.inj (Option.some.inj hfits)
      obtain ⟨d, tail, htail⟩ := List.exists_cons_of_length_pos (Pattern.pos_of_first? hstar)
      rw [htail] at hwhole
      refine ⟨terminal, segment.text, place, more, ?_, ?_⟩
      · rw [htail, (List.cons.inj hwhole).1]
        rfl
      · rw [hlater, hsegment, Pattern.text_segment]
        rfl

/-- A character is reported exactly where nothing can be read, and then once: at a double quote
without a closing one on its line, at a single quote that begins no character, and at a character
that the language does not use. A newline is never reported, so every restart goes on in the line of
its stray, and the mark of a comment that is never closed is no lexical error. -/
theorem reports_unreadable (code : String) :
    (∀ diagnostic ∈ (tokenize code).diagnostics, ∃ earlier later c rest,
      scan .start [] code.toList = earlier ++ later ∧ textOf later = c :: rest ∧
        Unreadable (c :: rest) ∧
        diagnostic = .unrecognisedCharacter (endPosition (textOf earlier)) c) ∧
    (∀ earlier later c rest, scan .start [] code.toList = earlier ++ later →
      textOf later = c :: rest → Unreadable (c :: rest) →
      (tokenize code).diagnostics.count (.unrecognisedCharacter (endPosition (textOf earlier)) c) =
        1) ∧
    (∀ position, .unrecognisedCharacter position '\n' ∉ (tokenize code).diagnostics) ∧
    (∀ state next : Recovery, state.round code.toList = .inr next →
      ∃ stray : Stray, stray.char ≠ '\n' ∧
        next.diagnostics = state.diagnostics ++ [stray.diagnostic] ∧
        next.base = ⟨stray.position.line, stray.position.column + 1⟩) ∧
    ∀ earlier later rest, scan .start [] code.toList = earlier ++ later →
      textOf later = '/' :: '*' :: rest → ¬ ['*', '/'] <:+: rest →
      ∃ terminal text place more, text.head? = some '*' ∧
        later = (.token .slash ['/'], endPosition (textOf earlier)) ::
          (.token terminal text, place) :: more := by
  refine ⟨?_, ?_, newline_not_mem_diagnostics code, ?_, ?_⟩
  · intro diagnostic hmem
    exact mem_diagnostics_iff.mp hmem
  · intro earlier later c rest hscan htext hunreadable
    exact count_diagnostics_eq_one hscan htext hunreadable
  · intro state next hround
    exact Recovery.base_of_round hround
  · intro earlier later rest hscan htext hopen
    exact scan_openComment hscan htext hopen

-- the mark is read, and the only quote that could close the string is escaped
example : (tokenize "/* \"\\\"").diagnostics = [.unrecognisedCharacter ⟨1, 3⟩ '"',
    .unrecognisedCharacter ⟨1, 4⟩ '\\', .unrecognisedCharacter ⟨1, 5⟩ '"'] := by
  decide +kernel

end CrateAnalysis
