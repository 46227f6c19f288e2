import CrateAnalysis.Proofs.Token.Scan

/-!
# The longest match

The lexer takes the first pattern of a fixed order that fits. The order is such that this is also
the pattern that takes the most: patterns that can begin with the same character are the two kinds
of number, the comments and the operators, and among these the longer match is tried first. So no
pattern takes more than the one that is taken, and no word is cut off.
-/

set_option autoImplicit false

namespace CrateAnalysis

namespace Terminal

/-- Whether a terminal is that of a word: a keyword or an identifier. -/
def isWord (terminal : Terminal) : Bool := terminal ∈ keywords || terminal = .identifier

/-- The terminal of a word is that of a word. -/
theorem isWord_ofWord (word : List Char) : (ofWord word).isWord := by
  unfold ofWord
  cases hkeyword : keyword? word with
  | none => rfl
  | some keyword => simp [isWord, List.mem_of_find?_eq_some hkeyword]

/-- A keyword is found under its spelling. -/
theorem keyword?_spelling : ∀ keyword ∈ keywords, ∀ spelling ∈ keyword.spelling?,
    keyword? spelling.toList = some keyword := by
  decide +kernel

/-- No operator is the terminal of a word. -/
theorem not_isWord_of_mem_operators : ∀ terminal ∈ operators, terminal.isWord = false := by
  decide +kernel

/-- A word is a keyword exactly if it is the spelling of that keyword. -/
theorem ofWord_eq_iff {word : List Char} {keyword : Terminal} (hmem : keyword ∈ keywords) :
    ofWord word = keyword ↔ keyword.spelling? = some (String.ofList word) := by
  constructor
  · intro h
    have hspelled : ∀ keyword ∈ keywords, keyword.spelling?.isSome := by decide +kernel
    obtain ⟨spelling, hspelling⟩ := Option.isSome_iff_exists.mp (hspelled keyword hmem)
    have hword : word = spelling.toList := by
      apply eq_spelling_of_ofWord
      rw [h, hspelling]
    rw [hword, String.ofList_toList, hspelling]
  · intro h
    have hfound := keyword?_spelling keyword hmem _ h
    rw [String.toList_ofList] at hfound
    rw [ofWord, hfound, Option.getD_some]

/-- A word is an identifier exactly if no keyword is spelled like it. -/
theorem ofWord_eq_identifier_iff {word : List Char} :
    ofWord word = .identifier ↔
      ∀ keyword ∈ keywords, keyword.spelling? ≠ some (String.ofList word) := by
  constructor
  · intro h keyword hmem hspelling
    rw [← ofWord_eq_iff hmem, h] at hspelling
    subst hspelling
    revert hmem
    decide
  · intro h
    have hword := isWord_ofWord word
    rw [isWord, Bool.or_eq_true, decide_eq_true_eq, decide_eq_true_eq] at hword
    rcases hword with hmem | hidentifier
    · exact absurd ((ofWord_eq_iff hmem).mp rfl) (h _ hmem)
    · exact hidentifier

end Terminal

namespace Pattern

/-! ## Patterns that begin alike -/

/-- Nothing but a word begins with a letter or an underscore. -/
theorem eq_word_of_begins {c : Char} (hc : startsWord c) :
    ∀ pattern ∈ order, pattern.begins c → pattern = .word := by
  have hletters : ∀ n < 123, startsWord (Char.ofNat n) → ∀ pattern ∈ order,
      pattern.begins (Char.ofNat n) → pattern = .word := by decide +kernel
  have hrange : c.toNat < 123 := by
    rw [startsWord, Bool.or_eq_true, decide_eq_true_eq] at hc
    rcases hc with hletter | rfl
    · have hcase : c.isUpper = true ∨ c.isLower = true := (Bool.or_eq_true _ _).mp hletter
      rcases hcase with hupper | hlower
      · have hbounds : c.val ≥ 'A'.val ∧ c.val ≤ 'Z'.val := of_decide_eq_true hupper
        exact Nat.lt_of_le_of_lt (UInt32.le_iff_toNat_le.mp hbounds.2) (by decide)
      · have hbounds := (Bool.and_eq_true _ _).mp hlower
        exact Nat.lt_of_le_of_lt (UInt32.le_iff_toNat_le.mp (of_decide_eq_true hbounds.2))
          (by decide)
    · decide
  have hword := hletters c.toNat hrange
  rw [Char.ofNat_toNat] at hword
  exact hword hc

/-- A pattern that is tried before the one that is taken does not fit. -/
theorem length?_eq_none_of_earlier {cs : List Char} {taken other : Pattern} {n : Nat}
    (h : first? cs = some (taken, n)) (hearlier : order.idxOf other < order.idxOf taken) :
    other.length? cs = none := by
  obtain ⟨before, after, horder, hfits, hbefore⟩ := first?_eq_some_iff.mp h
  have htaken : taken ∉ before := by
    intro hmem
    rw [hbefore taken hmem] at hfits
    cases hfits
  apply hbefore
  apply Decidable.byContradiction
  intro hother
  rw [horder, List.idxOf_append, List.idxOf_append, if_neg htaken, if_neg hother,
    List.idxOf_cons_self] at hearlier
  omega

/-- A spelling takes exactly itself. -/
theorem spellingLength?_eq_some_iff {spelling : Option String} {cs : List Char} {n : Nat} :
    spellingLength? spelling cs = some n ↔
      ∃ spelled, spelling = some spelled ∧ spelled.toList <+: cs ∧ spelled.toList.length = n := by
  cases spelling with
  | none => simp [spellingLength?]
  | some spelled => simp [spellingLength?, List.isPrefixOf_iff_prefix]

/-- A whole number takes no more than a number with a fraction, where there is one. -/
theorem integerLength?_le_floatLength? {cs : List Char} {n m : Nat}
    (hfloat : floatLength? cs = some n) (hinteger : integerLength? cs = some m) : m ≤ n := by
  rw [floatLength?_eq] at hfloat
  obtain ⟨whole, hwhole, hfloat⟩ := Option.bind_eq_some_iff.mp hfloat
  simp only [integerLength?, hwhole, Option.bind_eq_bind, Option.bind_some,
    Option.some.injEq] at hinteger
  split at hfloat
  next hpoint =>
    obtain ⟨fraction, -, hlength⟩ := Option.map_eq_some_iff.mp hfloat
    -- the point after the digits begins no suffix
    have hsuffix : suffixLength integerSuffixes (cs.drop whole) = 0 := by
      apply Nat.eq_zero_of_not_pos
      intro hpos
      obtain ⟨suffix, hmem, hfits, -⟩ := exists_suffix_of_suffixLength hpos
      have hheads : ∀ suffix ∈ integerSuffixes, suffix.head?.any (· ≠ '.') := by decide +kernel
      have hhead := hheads suffix hmem
      rw [← List.head?_drop] at hpoint
      cases suffix with
      | nil => cases hhead
      | cons c suffix =>
        obtain ⟨tail, htail⟩ := hfits
        rw [← htail] at hpoint
        obtain rfl := Option.some.inj hpoint
        cases hhead
    omega
  next => cases hfloat

/-- Comments take at least their opening marks. -/
theorem two_le_of_comment {cs : List Char} {n : Nat}
    (h : blockCommentLength? cs = some n ∨ lineCommentLength? cs = some n) : 2 ≤ n := by
  rcases h with h | h
  · unfold blockCommentLength? at h
    split at h
    next =>
      obtain ⟨m, -, rfl⟩ := Option.map_eq_some_iff.mp h
      exact Nat.le_add_left 2 m
    next => cases h
  · unfold lineCommentLength? at h
    split at h
    next =>
      obtain rfl := Option.some.inj h
      exact Nat.le_add_left 2 _
    next => cases h

/-- Of two operators that are tried one after the other, the later one is not longer. -/
theorem length_le_of_idxOf_le : ∀ first ∈ Terminal.operators, ∀ second ∈ Terminal.operators,
    order.idxOf (.operator first) ≤ order.idxOf (.operator second) →
    ∀ longer ∈ first.spelling?, ∀ shorter ∈ second.spelling?,
      shorter.toList.length ≤ longer.toList.length := by
  decide +kernel

/-- Every operator has its place in the order of the patterns. -/
theorem operator_mem_order_iff {terminal : Terminal} :
    .operator terminal ∈ order ↔ terminal ∈ Terminal.operators := by
  simp [order]

/-- Operators are tried last. -/
theorem idxOf_lt_idxOf_operator : ∀ pattern ∈ order, ∀ terminal ∈ Terminal.operators,
    order.idxOf (.operator terminal) ≤ order.idxOf pattern →
    ∃ later ∈ Terminal.operators, pattern = .operator later := by
  decide +kernel

/-- No operator that begins with a slash takes more than a comment does. -/
theorem length_le_of_slash {pattern : Pattern} {cs : List Char} {m : Nat}
    (hpattern : pattern = .operator .slash ∨ pattern = .operator .slashEqual)
    (hm : pattern.length? cs = some m) : m ≤ 2 := by
  rcases hpattern with rfl | rfl
  · obtain ⟨spelled, hspelled, -, rfl⟩ := spellingLength?_eq_some_iff.mp hm
    obtain rfl := Option.some.inj hspelled
    decide
  · obtain ⟨spelled, hspelled, -, rfl⟩ := spellingLength?_eq_some_iff.mp hm
    obtain rfl := Option.some.inj hspelled
    decide

/-- No pattern takes more than the first one that fits. -/
theorem length?_le_of_first? {cs : List Char} {taken other : Pattern} {n m : Nat}
    (h : first? cs = some (taken, n)) (hother : other ∈ order) (hm : other.length? cs = some m) :
    m ≤ n := by
  obtain ⟨htaken, hn⟩ := length?_of_first? h
  have hself : other = taken → m ≤ n := by
    rintro rfl
    rw [hm] at hn
    exact Nat.le_of_eq (Option.some.inj hn)
  have hlater : order.idxOf taken ≤ order.idxOf other := by
    apply Nat.le_of_not_lt
    intro hearlier
    rw [length?_eq_none_of_earlier h hearlier] at hm
    cases hm
  obtain ⟨c, tail, rfl⟩ : ∃ c tail, cs = c :: tail := by
    apply List.exists_cons_of_length_pos
    have hbounds := length?_bounds hn
    omega
  have hbegins := begins_of_length? hm
  have hbeginsTaken := begins_of_length? hn
  cases taken with
  | float =>
    rcases isNumber_of_begins hbeginsTaken other hother hbegins with rfl | rfl
    · exact hself rfl
    · exact integerLength?_le_floatLength? hn hm
  | integer =>
    rcases isNumber_of_begins hbeginsTaken other hother hbegins with rfl | rfl
    · exact absurd hlater (by decide)
    · exact hself rfl
  | word => exact hself (eq_word_of_begins hbeginsTaken other hother hbegins)
  | string =>
    obtain rfl : c = '"' := by simpa [begins] using hbeginsTaken
    exact hself (eq_string_of_begins other hother hbegins)
  | blank => exact hself (eq_blank_of_begins hbeginsTaken other hother hbegins)
  | character =>
    obtain rfl : c = '\'' := by simpa [begins] using hbeginsTaken
    exact hself (eq_character_of_begins other hother hbegins)
  | blockComment =>
    obtain rfl : c = '/' := by simpa [begins] using hbeginsTaken
    rcases slash_of_begins other hother hbegins with rfl | rfl | hslash
    · exact hself rfl
    · -- the second character tells the two comments apart
      simp only [length?, blockCommentLength?] at hn
      split at hn
      next body heq =>
        rw [heq] at hm
        simp [length?, lineCommentLength?] at hm
      next => cases hn
    · exact Nat.le_trans (length_le_of_slash hslash hm) (two_le_of_comment (.inl hn))
  | lineComment =>
    obtain rfl : c = '/' := by simpa [begins] using hbeginsTaken
    rcases slash_of_begins other hother hbegins with rfl | rfl | hslash
    · exact absurd hlater (by decide)
    · exact hself rfl
    · exact Nat.le_trans (length_le_of_slash hslash hm) (two_le_of_comment (.inr hn))
  | operator terminal =>
    have hoperator := operator_mem_order_iff.mp htaken
    obtain ⟨later, hmem, rfl⟩ := idxOf_lt_idxOf_operator other hother terminal hoperator hlater
    obtain ⟨longer, hlonger, -, rfl⟩ := spellingLength?_eq_some_iff.mp hn
    obtain ⟨shorter, hshorter, -, rfl⟩ := spellingLength?_eq_some_iff.mp hm
    exact length_le_of_idxOf_le terminal hoperator later hmem hlater longer hlonger shorter hshorter

/-! ## Words and spellings -/

/-- Keywords are spelled as words are. -/
theorem wordMarks_of_keyword : ∀ keyword ∈ Terminal.keywords, ∀ spelling ∈ keyword.spelling?,
    spelling.toList.head?.any startsWord ∧ spelling.toList.all isWordMark := by
  decide +kernel

/-- A word takes all the letters, digits and underscores that stand together. -/
theorem length_le_of_word {word cs : List Char} {n : Nat} (hword : word.all isWordMark)
    (hfits : word <+: cs) (h : wordLength? cs = some n) : word.length ≤ n := by
  cases cs with
  | nil => cases h
  | cons c tail =>
    rw [wordLength?] at h
    split at h
    next hc =>
      obtain rfl := Option.some.inj h
      cases word with
      | nil => exact Nat.zero_le _
      | cons d word =>
        obtain ⟨rfl, hrest⟩ := List.cons_prefix_cons.mp hfits
        rw [List.all_cons, Bool.and_eq_true] at hword
        have hrun : word <+: tail.takeWhile isWordMark := by
          obtain ⟨rest, rfl⟩ := hrest
          rw [List.takeWhile_append_of_pos (List.all_eq_true.mp hword.2)]
          exact List.prefix_append _ _
        simpa [runLength] using hrun.length_le
    next => cases h

/-- No keyword and no operator that stands here is longer than what the first pattern takes. -/
theorem spelling_le_of_first? {cs : List Char} {taken : Pattern} {n : Nat}
    (h : first? cs = some (taken, n)) {terminal : Terminal} {spelling : String}
    (hspelling : terminal.spelling? = some spelling) (hfits : spelling.toList <+: cs) :
    spelling.toList.length ≤ n := by
  have hall := terminal.mem_all
  rw [Terminal.all, List.mem_append, List.mem_append] at hall
  rcases hall with (hkeyword | hoperator) | hclass
  · obtain ⟨hhead, hmarks⟩ := wordMarks_of_keyword terminal hkeyword spelling hspelling
    obtain ⟨htaken, hn⟩ := length?_of_first? h
    cases hchars : spelling.toList with
    | nil => exact Nat.zero_le _
    | cons c word =>
      rw [hchars] at hhead hmarks hfits
      obtain ⟨rest, rfl⟩ := hfits
      obtain rfl := eq_word_of_begins hhead taken htaken (begins_of_length? hn)
      exact length_le_of_word hmarks (List.prefix_append _ _) hn
  · have hfits : (Pattern.operator terminal).length? cs = some spelling.toList.length :=
      spellingLength?_eq_some_iff.mpr ⟨spelling, hspelling, hfits, rfl⟩
    exact length?_le_of_first? h (operator_mem_order_iff.mpr hoperator) hfits
  · have hnone : ∀ terminal ∈ Terminal.classes, terminal.spelling? = none := by decide
    rw [hnone terminal hclass] at hspelling
    cases hspelling

section Words

variable {text rest : List Char} {taken : Pattern} {terminal : Terminal}

/-- The terminal of what was taken is that of a word exactly if it was taken as a word. -/
theorem isWord_iff_eq_word (h : first? (text ++ rest) = some (taken, text.length))
    (hterminal : taken.terminal? text = some terminal) : terminal.isWord ↔ taken = .word := by
  constructor
  · intro hword
    cases taken with
    | word => rfl
    | operator other =>
      obtain rfl := Option.some.inj hterminal
      have hmem := operator_mem_order_iff.mp (length?_of_first? h).1
      rw [Terminal.not_isWord_of_mem_operators other hmem] at hword
      cases hword
    | float | integer | string | character =>
      obtain rfl := Option.some.inj hterminal
      revert hword
      decide
    | blockComment | blank | lineComment => cases hterminal
  · rintro rfl
    obtain rfl := Option.some.inj hterminal
    exact Terminal.isWord_ofWord _

/-- What was taken was taken as a word exactly if it begins with a letter or an underscore. -/
theorem eq_word_iff_startsWord (h : first? (text ++ rest) = some (taken, text.length)) :
    taken = .word ↔ ∃ c ∈ text.head?, startsWord c := by
  obtain ⟨htaken, hfits⟩ := length?_of_first? h
  obtain ⟨c, word, rfl⟩ := List.exists_cons_of_length_pos (length?_bounds hfits).1
  have hbegins := begins_of_length? hfits
  constructor
  · rintro rfl
    exact ⟨c, rfl, hbegins⟩
  · rintro ⟨d, hd, hstarts⟩
    obtain rfl := Option.some.inj hd
    exact eq_word_of_begins hstarts taken htaken hbegins

end Words

end Pattern

/-! ## Every match is the longest -/

/-- At the place where `text` and then `rest` follow, nothing takes more than `text`: no pattern, no
keyword and no operator. -/
structure LongestMatch (text rest : List Char) : Prop where
  pattern_le : ∀ pattern ∈ Pattern.order, ∀ n, pattern.length? (text ++ rest) = some n →
    n ≤ text.length
  spelling_le : ∀ (terminal : Terminal) (spelling : String), terminal.spelling? = some spelling →
    spelling.toList <+: text ++ rest → spelling.toList.length ≤ text.length

/-- A word before `rest` is a whole word: no letter, digit or underscore follows it, and its whole
text decides which keyword it is, or that it is an identifier. -/
structure WholeWord (terminal : Terminal) (text rest : List Char) : Prop where
  isWordMark_of_mem : ∀ c ∈ text, Pattern.isWordMark c
  not_isWordMark_of_next : ∀ c ∈ rest.head?, Pattern.isWordMark c = false
  eq_keyword_iff : ∀ keyword ∈ Terminal.keywords,
    terminal = keyword ↔ keyword.spelling? = some (String.ofList text)
  eq_identifier_iff : terminal = .identifier ↔
    ∀ keyword ∈ Terminal.keywords, keyword.spelling? ≠ some (String.ofList text)

/-- What the first pattern that fits takes is a longest match. -/
theorem longestMatch_of_first? {text rest : List Char} {pattern : Pattern}
    (h : Pattern.first? (text ++ rest) = some (pattern, text.length)) : LongestMatch text rest where
  pattern_le := fun _ hmem _ hfits => Pattern.length?_le_of_first? h hmem hfits
  spelling_le := fun _ _ hspelling hfits => Pattern.spelling_le_of_first? h hspelling hfits

/-- What the pattern of words takes is a whole word. -/
theorem wholeWord_of_first? {text rest : List Char}
    (h : Pattern.first? (text ++ rest) = some (.word, text.length)) :
    WholeWord (.ofWord text) text rest := by
  have hword : Pattern.wordLength? (text ++ rest) = some text.length :=
    (Pattern.length?_of_first? h).2
  obtain ⟨c, word, rfl⟩ := List.exists_cons_of_length_pos (Pattern.wordLength?_bounds hword).1
  rw [List.cons_append, Pattern.wordLength?] at hword
  split at hword
  next hc =>
    have hrun : Pattern.runLength Pattern.isWordMark (word ++ rest) = word.length := by
      simpa using hword
    have htake := Pattern.take_runLength Pattern.isWordMark (word ++ rest)
    have hdrop := Pattern.drop_runLength Pattern.isWordMark (word ++ rest)
    rw [hrun, List.take_left] at htake
    rw [hrun, List.drop_left] at hdrop
    refine ⟨?_, ?_, fun _ hmem => Terminal.ofWord_eq_iff hmem, Terminal.ofWord_eq_identifier_iff⟩
    · intro d hd
      rcases List.mem_cons.mp hd with rfl | hd
      · simp only [Pattern.startsWord, Bool.or_eq_true] at hc
        simp only [Pattern.isWordMark, Char.isAlphanum, Bool.or_eq_true]
        exact hc.imp_left .inl
      · rw [htake] at hd
        exact List.all_eq_true.mp List.all_takeWhile d hd
    · intro d hd
      have hstop := List.head?_dropWhile_not Pattern.isWordMark (word ++ rest)
      rw [← hdrop, Option.mem_def.mp hd] at hstop
      simpa using hstop
  next => cases hword

/-- Lexing takes the longest match everywhere. The tokens of a source text are those of its scan,
and at every place where the scan takes a token or layout, the first pattern that fits takes it,
while no other pattern, no keyword and no operator takes more. The tokens of words are those that
begin with a letter or an underscore, and each of them is a whole word: what follows it is no
letter, digit or underscore, and it has the terminal of a keyword exactly if its whole text is that
keyword, and that of an identifier if it is none. -/
theorem scan_takes_longest (code : String) :
    (tokenize code).tokens.dropLast = (scan .start [] code.toList).filterMap Segment.token? ∧
      ∀ earlier segment place later,
        scan .start [] code.toList = earlier ++ (segment, place) :: later →
        (∀ c, segment ≠ .stray c) →
        (∃ pattern, Pattern.first? (segment.text ++ textOf later) =
          some (pattern, segment.text.length)) ∧
        LongestMatch segment.text (textOf later) ∧
        ∀ terminal text, segment = .token terminal text →
          (terminal.isWord ↔ ∃ c ∈ text.head?, Pattern.startsWord c) ∧
          (terminal.isWord → WholeWord terminal text (textOf later)) := by
  refine ⟨tokens_tokenize code, ?_⟩
  intro earlier segment place later h hstray
  obtain ⟨-, ⟨c, hc, -⟩ | ⟨pattern, hsegment, hfits⟩⟩ := eq_of_scan_eq_append h
  · exact absurd hc (hstray c)
  · refine ⟨⟨pattern, hfits⟩, longestMatch_of_first? hfits, ?_⟩
    rintro terminal text rfl
    rw [Segment.text] at hfits hsegment
    have hterminal := Pattern.terminal?_of_segment hsegment.symm
    have hword := Pattern.isWord_iff_eq_word hfits hterminal
    refine ⟨hword.trans (Pattern.eq_word_iff_startsWord hfits), fun hisWord => ?_⟩
    obtain rfl := hword.mp hisWord
    obtain rfl := Option.some.inj hterminal
    exact wholeWord_of_first? hfits

-- no number takes the first point, although one could go on with it
example : (tokenize "0..10 1.5f32").tokens.map Token.text =
    ["0", "..", "10", "1.5f32", "<EOF>"] := by
  decide +kernel

end CrateAnalysis
