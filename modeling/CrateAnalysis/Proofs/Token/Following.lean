import CrateAnalysis.Proofs.Token.Beginning

/-!
# Tokens and what follows them

What a pattern takes may depend on the text after it: a longer number, a longer operator or a
comment may begin at the same place. A blank ends every token, though. The main statement of this
module is that a token, wherever it was read, is read again as the same token when nothing or a
blank follows it. For this, what each pattern takes is compared before two texts, `next`, which
followed the token when it was read, and `rest`, which begins with a blank.
-/

set_option autoImplicit false

namespace CrateAnalysis

/-- There is no text, or it begins with a blank. -/
def StartsBlank (rest : List Char) : Prop := ∀ c ∈ rest.head?, Pattern.isBlank c

/-- The end of the text counts as a blank. -/
theorem startsBlank_nil : StartsBlank [] := nofun

/-- What holds of no blank does not hold of the first character of such a text. -/
theorem StartsBlank.head {rest : List Char} (hrest : StartsBlank rest) {p : Char → Bool}
    (hp : ∀ c, Pattern.isBlank c → p c = false) : ∀ c ∈ rest.head?, p c = false :=
  fun c hc => hp c (hrest c hc)

/-- Blank text after a text without blanks adds nothing to the beginnings of that text that are
without blanks. -/
theorem prefix_of_prefix_append {word text rest : List Char} (hrest : StartsBlank rest)
    (hword : word.any Pattern.isBlank = false) (h : word <+: text ++ rest) : word <+: text := by
  rcases List.prefix_or_prefix_of_prefix h (List.prefix_append text rest) with hle | ⟨more, rfl⟩
  · exact hle
  · cases more with
    | nil => simp
    | cons c more =>
      -- the first character beyond the text would be a blank of the word
      have hmore : c :: more <+: rest := (List.prefix_append_right_inj text).mp h
      obtain ⟨tail, rfl⟩ := hmore
      simp [hrest c rfl] at hword

namespace Pattern

/-- No operator holds a blank. -/
theorem any_isBlank_spelling {terminal : Terminal} {spelling : String}
    (hspelling : terminal.spelling? = some spelling) : spelling.toList.any isBlank = false := by
  have hall : ∀ terminal ∈ Terminal.all, ∀ spelling ∈ terminal.spelling?,
      spelling.toList.any isBlank = false := by decide +kernel
  exact hall terminal terminal.mem_all spelling hspelling

/-! ## What a token takes -/

section Following

variable {text next rest : List Char}

variable (text next) in
/-- A run that stops within a text stops there whatever comes after the text, if the first
character of that does not belong to the run. -/
theorem runLength_append {p : Char → Bool} (hrest : ∀ c ∈ rest.head?, p c = false)
    (hle : runLength p (text ++ next) ≤ text.length) :
    runLength p (text ++ rest) = runLength p (text ++ next) := by
  unfold runLength at *
  rw [List.takeWhile_append] at hle ⊢
  rw [List.takeWhile_append]
  by_cases hall : (text.takeWhile p).length = text.length
  · rw [if_pos hall, List.length_append] at hle
    have hstop : rest.takeWhile p = [] := by
      cases rest with
      | nil => rfl
      | cons c rest => simp [hrest c rfl]
    simp only [if_pos hall, hstop, List.length_append, List.length_nil]
    omega
  · rw [if_neg hall, if_neg hall]

/-- No number goes on with a blank. -/
theorem isDigitMark_of_isBlank (c : Char) (hc : isBlank c) : isDigitMark c = false := by
  rcases eq_of_isBlank hc with rfl | rfl | rfl | rfl | rfl <;> rfl

/-- A blank is no digit. -/
theorem isDigit_of_isBlank (c : Char) (hc : isBlank c) : c.isDigit = false := by
  rcases eq_of_isBlank hc with rfl | rfl | rfl | rfl | rfl <;> rfl

/-- No word goes on with a blank. -/
theorem isWordMark_of_isBlank (c : Char) (hc : isBlank c) : isWordMark c = false := by
  rcases eq_of_isBlank hc with rfl | rfl | rfl | rfl | rfl <;> rfl

/-- A run of digits within the text is the same before a blank. -/
theorem digits?_append (hrest : StartsBlank rest) {n : Nat} (h : digits? (text ++ next) = some n)
    (hle : n ≤ text.length) : digits? (text ++ rest) = some n := by
  cases text with
  | nil => exact absurd (digits?_bounds h).1 (by simpa using hle)
  | cons c text =>
    simp only [List.cons_append, digits?, List.length_cons] at h hle ⊢
    by_cases hc : c.isDigit
    · simp only [hc, if_true, Option.some.injEq] at h ⊢
      rw [← h, runLength_append text next (hrest.head isDigitMark_of_isBlank) (by omega)]
    · simp [hc] at h

/-- The length of the sign that stands here, 0 when none does. -/
def signLength : List Char → Nat
  | c :: _ => if c = '+' || c = '-' then 1 else 0
  | [] => 0

/-- A sign is one character. -/
theorem signLength_le (cs : List Char) : signLength cs ≤ 1 := by
  unfold signLength
  split
  · split <;> omega
  · omega

/-- After its letter an exponent has a sign or none, and then digits. -/
theorem exponentLength_cons {c : Char} (hc : c = 'e' ∨ c = 'E') (cs : List Char) :
    exponentLength (c :: cs) =
      if runLength Char.isDigit (cs.drop (signLength cs)) = 0 then 0
      else 1 + signLength cs + runLength Char.isDigit (cs.drop (signLength cs)) := by
  have hmark : (decide (c = 'e') || decide (c = 'E')) = true := by simpa using hc
  cases cs with
  | nil => simp [exponentLength, hmark, runLength]
  | cons s cs =>
    have hsign : (if s = '+' || s = '-' then 1 else 0) = signLength (s :: cs) := rfl
    simp only [exponentLength, hmark, if_true, hsign]
    split
    next hnone => rw [if_pos hnone]
    next n hsome => rw [hsome, if_neg (Nat.succ_ne_zero n)]

/-- An exponent begins with its letter. -/
theorem exponentLength_of_ne {c : Char} (hc : ¬ (c = 'e' ∨ c = 'E')) (cs : List Char) :
    exponentLength (c :: cs) = 0 := by
  simp_all [exponentLength]

/-- No exponent begins with a blank. -/
theorem exponentLength_of_startsBlank (hrest : StartsBlank rest) : exponentLength rest = 0 := by
  cases rest with
  | nil => rfl
  | cons c rest =>
    apply exponentLength_of_ne
    rcases eq_of_isBlank (hrest c rfl) with rfl | rfl | rfl | rfl | rfl <;> decide

/-- No sign begins with a blank. -/
theorem signLength_of_startsBlank (hrest : StartsBlank rest) : signLength rest = 0 := by
  cases rest with
  | nil => rfl
  | cons c rest => rcases eq_of_isBlank (hrest c rfl) with rfl | rfl | rfl | rfl | rfl <;> rfl

variable (text next) in
/-- An exponent within the text is the same before a blank. -/
theorem exponentLength_append (hrest : StartsBlank rest)
    (hle : exponentLength (text ++ next) ≤ text.length) :
    exponentLength (text ++ rest) = exponentLength (text ++ next) := by
  cases text with
  | nil => exact (exponentLength_of_startsBlank hrest).trans (Nat.le_zero.mp hle).symm
  | cons c text =>
    rw [List.cons_append] at hle ⊢
    by_cases hc : c = 'e' ∨ c = 'E'
    · rw [exponentLength_cons hc] at hle
      rw [List.cons_append, exponentLength_cons hc, exponentLength_cons hc]
      cases text with
      | nil =>
        -- a lone letter takes no digits from what follows it
        rw [List.nil_append, List.length_singleton] at hle
        rw [List.nil_append, List.nil_append]
        have hstop : runLength Char.isDigit rest = 0 := by
          exact runLength_append [] [] (hrest.head isDigit_of_isBlank) (Nat.le_refl 0)
        rw [signLength_of_startsBlank hrest, List.drop_zero, if_pos hstop]
        split at hle
        next hzero => rw [if_pos hzero]
        next => omega
      | cons s text =>
        have hsign : ∀ cs, signLength (s :: text ++ cs) = signLength (s :: text) := fun _ => rfl
        have hdrop : ∀ cs, (s :: text ++ cs).drop (signLength (s :: text)) =
            (s :: text).drop (signLength (s :: text)) ++ cs := by
          intro cs
          apply List.drop_append_of_le_length
          exact Nat.le_trans (signLength_le _) (by simp)
        rw [hsign, hdrop] at hle ⊢
        rw [hsign, hdrop, runLength_append _ next (hrest.head isDigit_of_isBlank)]
        rw [List.length_drop]
        simp only [List.length_cons] at hle ⊢
        split at hle <;> omega
    · rw [List.cons_append, exponentLength_of_ne hc, exponentLength_of_ne hc]

variable (text next) in
/-- A suffix within the text is the same before a blank. -/
theorem suffixLength_append {suffixes : List (List Char)} (hrest : StartsBlank rest)
    (hsuffixes : ∀ suffix ∈ suffixes, suffix.any isBlank = false)
    (hle : suffixLength suffixes (text ++ next) ≤ text.length) :
    suffixLength suffixes (text ++ rest) = suffixLength suffixes (text ++ next) := by
  have hback : ∀ suffix ∈ suffixes, suffix <+: text ++ rest → suffix <+: text ++ next :=
    fun suffix hmem hfits =>
      (prefix_of_prefix_append hrest (hsuffixes suffix hmem) hfits).trans (List.prefix_append _ _)
  unfold suffixLength at *
  cases hfound : suffixes.find? (·.isPrefixOf (text ++ next)) with
  | none =>
    have hnone : suffixes.find? (·.isPrefixOf (text ++ rest)) = none := by
      rw [List.find?_eq_none] at hfound ⊢
      intro suffix hmem hfits
      rw [List.isPrefixOf_iff_prefix] at hfits
      exact hfound suffix hmem (List.isPrefixOf_iff_prefix.mpr (hback suffix hmem hfits))
    rw [hnone]
  | some suffix =>
    rw [hfound] at hle
    obtain ⟨hfits, earlier, later, rfl, hearlier⟩ := List.find?_eq_some_iff_append.mp hfound
    have hsome : (earlier ++ suffix :: later).find? (·.isPrefixOf (text ++ rest)) =
        some suffix := by
      rw [List.find?_eq_some_iff_append]
      refine ⟨?_, earlier, later, rfl, ?_⟩
      · rw [List.isPrefixOf_iff_prefix] at hfits ⊢
        exact (List.prefix_of_prefix_length_le hfits (List.prefix_append _ _) hle).trans
          (List.prefix_append _ _)
      · intro other hmem
        have hother := hearlier other hmem
        rw [Bool.not_eq_true', ← Bool.not_eq_true, List.isPrefixOf_iff_prefix] at hother ⊢
        exact fun hfits => hother (hback other (List.mem_append_left _ hmem) hfits)
    rw [hsome]

/-- No suffix of a float has a blank. -/
theorem any_isBlank_floatSuffixes : ∀ suffix ∈ floatSuffixes, suffix.any isBlank = false := by
  decide +kernel

/-- No suffix of an integer has a blank. -/
theorem any_isBlank_integerSuffixes :
    ∀ suffix ∈ integerSuffixes, suffix.any isBlank = false := by decide +kernel

/-- How many characters a number takes after its point. -/
def fractionLength? (cs : List Char) : Option Nat := do
  let part ← digits? cs
  let exponent := exponentLength (cs.drop part)
  some (part + exponent + suffixLength floatSuffixes (cs.drop (part + exponent)))

/-- A float has digits, a point, and then its fraction. -/
theorem floatLength?_eq (cs : List Char) :
    floatLength? cs = (digits? cs).bind fun whole =>
      if cs[whole]? = some '.' then (fractionLength? (cs.drop (whole + 1))).map (whole + 1 + ·)
      else none := by
  unfold floatLength? fractionLength?
  apply Option.bind_congr
  intro whole _
  rw [← List.head?_drop, ← List.drop_drop]
  cases cs.drop whole with
  | nil => rfl
  | cons c fraction =>
    by_cases hc : c = '.'
    · subst hc
      cases hdigits : digits? fraction <;> simp [hdigits, Nat.add_assoc]
    · simp [hc]

/-- A fraction within the text is the same before a blank. -/
theorem fractionLength?_append (hrest : StartsBlank rest) {n : Nat}
    (h : fractionLength? (text ++ next) = some n) (hle : n ≤ text.length) :
    fractionLength? (text ++ rest) = some n := by
  simp only [fractionLength?, Option.bind_eq_bind, Option.bind_eq_some_iff,
    Option.some.injEq] at h
  obtain ⟨part, hpart, h⟩ := h
  have hdrop : ∀ n cs, n ≤ text.length → (text ++ cs).drop n = text.drop n ++ cs :=
    fun n cs hle => List.drop_append_of_le_length hle
  rw [hdrop part _ (by omega)] at h
  have hexponent := exponentLength_append (text.drop part) next hrest
    (by rw [List.length_drop]; omega)
  rw [hdrop (part + _) _ (by omega)] at h
  have hsuffix := suffixLength_append
    (text.drop (part + exponentLength (text.drop part ++ next))) next hrest
    any_isBlank_floatSuffixes (by rw [List.length_drop]; omega)
  simp only [fractionLength?, digits?_append hrest hpart (by omega), Option.bind_eq_bind,
    Option.bind_some, hdrop part rest (by omega), hexponent,
    hdrop (part + exponentLength (text.drop part ++ next)) rest (by omega), hsuffix, h]

/-- A float that is the whole text is one before a blank. -/
theorem floatLength?_append (hrest : StartsBlank rest)
    (h : floatLength? (text ++ next) = some text.length) :
    floatLength? (text ++ rest) = some text.length := by
  rw [floatLength?_eq] at h ⊢
  obtain ⟨whole, hwhole, h⟩ := Option.bind_eq_some_iff.mp h
  split at h
  next hpoint =>
    obtain ⟨n, hn, hlength⟩ := Option.map_eq_some_iff.mp h
    -- the point and the fraction lie within the text
    have hdrop : ∀ cs, (text ++ cs).drop (whole + 1) = text.drop (whole + 1) ++ cs :=
      fun cs => List.drop_append_of_le_length (by omega)
    have hget : ∀ cs, (text ++ cs)[whole]? = text[whole]? :=
      fun cs => List.getElem?_append_left (by omega)
    rw [hget] at hpoint
    rw [hdrop] at hn
    rw [digits?_append hrest hwhole (by omega), Option.bind_some, hget, if_pos hpoint, hdrop,
      fractionLength?_append hrest hn (by rw [List.length_drop]; omega), Option.map_some, hlength]
  next => cases h

/-- An integer that is the whole text is one before a blank. -/
theorem integerLength?_append (hrest : StartsBlank rest)
    (h : integerLength? (text ++ next) = some text.length) :
    integerLength? (text ++ rest) = some text.length := by
  simp only [integerLength?, Option.bind_eq_bind, Option.bind_eq_some_iff,
    Option.some.injEq] at h
  obtain ⟨whole, hwhole, h⟩ := h
  have hdrop : ∀ cs, (text ++ cs).drop whole = text.drop whole ++ cs :=
    fun cs => List.drop_append_of_le_length (by omega)
  rw [hdrop] at h
  have hsuffix := suffixLength_append (text.drop whole) next hrest
    any_isBlank_integerSuffixes (by rw [List.length_drop]; omega)
  simp only [integerLength?, digits?_append hrest hwhole (by omega), Option.bind_eq_bind,
    Option.bind_some, hdrop, hsuffix, h]

/-- A word that is the whole text is one where no character of a word follows. -/
theorem wordLength?_append (hrest : ∀ c ∈ rest.head?, isWordMark c = false)
    (h : wordLength? (text ++ next) = some text.length) :
    wordLength? (text ++ rest) = some text.length := by
  cases text with
  | nil => exact absurd (wordLength?_bounds h).1 (Nat.lt_irrefl 0)
  | cons c text =>
    simp only [List.cons_append, wordLength?, List.length_cons] at h ⊢
    split at h
    next hc =>
      rw [Option.some.injEq] at h
      rw [if_pos hc, runLength_append text next hrest (by omega), h]
    next => cases h

/-- A string ends at its closing quote, whatever comes after it. -/
theorem stringTail?_append {odd : Bool} {n : Nat} (h : stringTail? odd (text ++ next) = some n)
    (hle : n ≤ text.length) : stringTail? odd (text ++ rest) = some n := by
  induction text generalizing odd n with
  | nil => exact absurd (stringTail?_bounds h).1 (by simpa using hle)
  | cons c text ih =>
    rw [List.cons_append, stringTail?] at h ⊢
    split at h
    next => cases h
    next hnewline =>
      rw [if_neg hnewline]
      split at h
      next hodd =>
        obtain ⟨m, hm, rfl⟩ := Option.map_eq_some_iff.mp h
        rw [if_pos hodd, ih hm (by simpa using hle), Option.map_some]
      next hodd =>
        rw [if_neg hodd]
        split at h
        next hquote => rw [if_pos hquote, h]
        next hquote =>
          obtain ⟨m, hm, rfl⟩ := Option.map_eq_some_iff.mp h
          rw [if_neg hquote, ih hm (by simpa using hle), Option.map_some]

/-- A string that is the whole text is one before any text. -/
theorem stringLength?_append (h : stringLength? (text ++ next) = some text.length) :
    stringLength? (text ++ rest) = some text.length := by
  cases text with
  | nil => exact absurd (stringLength?_bounds h).1 (Nat.lt_irrefl 0)
  | cons c text =>
    unfold stringLength? at h
    split at h
    next tail heq =>
      obtain ⟨rfl, rfl⟩ := List.cons.inj heq
      obtain ⟨m, hm, hlength⟩ := Option.map_eq_some_iff.mp h
      rw [List.length_cons, Nat.add_right_cancel_iff] at hlength
      subst hlength
      rw [List.cons_append, stringLength?, stringTail?_append hm (Nat.le_refl _)]
      rfl
    next => cases h

/-- A character that is the whole text is one before any text. -/
theorem characterLength?_append (h : characterLength? (text ++ next) = some text.length) :
    characterLength? (text ++ rest) = some text.length := by
  have htext : (text ++ next).take text.length = text := List.take_left
  unfold characterLength? at h
  split at h
  next c tail heq =>
    split at h
    · cases h
    next hc =>
      rw [heq, ← Option.some.inj h] at htext
      rw [← htext]
      simp [characterLength?, hc]
  next c tail _ heq =>
    split at h
    · cases h
    next hc =>
      rw [heq, ← Option.some.inj h] at htext
      rw [← htext]
      have hplain : characterLength? ('\'' :: c :: '\'' :: rest) = some 3 := by
        unfold characterLength?
        split
        next heq => simp_all
        next heq => simp_all
        next hnone => exact absurd rfl (hnone c rest)
      simpa using hplain
  next => cases h

/-- The text that an operator has taken is its spelling. -/
theorem eq_spelling_of_spellingLength? {spelling : Option String}
    (h : spellingLength? spelling (text ++ next) = some text.length) :
    spelling.map String.toList = some text := by
  simp only [spellingLength?, Option.bind_eq_bind, Option.bind_eq_some_iff] at h
  obtain ⟨spelled, rfl, h⟩ := h
  split at h
  next hfits =>
    rw [Option.some.injEq] at h
    rw [List.isPrefixOf_iff_prefix] at hfits
    have hself := List.prefix_of_prefix_length_le hfits (List.prefix_append _ _) (Nat.le_of_eq h)
    rw [Option.map_some, hself.eq_of_length h]
  next => cases h

/-- A spelling that is the whole text is one before any text. -/
theorem spellingLength?_append {spelling : Option String}
    (h : spellingLength? spelling (text ++ next) = some text.length) :
    spellingLength? spelling (text ++ rest) = some text.length := by
  obtain ⟨spelled, rfl, rfl⟩ := Option.map_eq_some_iff.mp (eq_spelling_of_spellingLength? h)
  simp [spellingLength?]

/-- A pattern that has taken a token takes it again before a blank. -/
theorem length?_append {pattern : Pattern} (hrest : StartsBlank rest)
    (htoken : (pattern.terminal? text).isSome)
    (h : pattern.length? (text ++ next) = some text.length) :
    pattern.length? (text ++ rest) = some text.length := by
  cases pattern with
  | float => exact floatLength?_append hrest h
  | integer => exact integerLength?_append hrest h
  | word => exact wordLength?_append (hrest.head isWordMark_of_isBlank) h
  | string => exact stringLength?_append h
  | character => exact characterLength?_append h
  | operator terminal => exact spellingLength?_append h
  | blockComment => cases htoken
  | blank => cases htoken
  | lineComment => cases htoken

/-! ## What a token does not become -/

/-- A suffix that has been taken is one of the suffixes. -/
theorem exists_suffix_of_suffixLength {suffixes : List (List Char)} {cs : List Char}
    (h : 0 < suffixLength suffixes cs) :
    ∃ suffix ∈ suffixes, suffix <+: cs ∧ suffix.length = suffixLength suffixes cs := by
  unfold suffixLength at *
  cases hfound : suffixes.find? (·.isPrefixOf cs) with
  | none => simp [hfound] at h
  | some suffix =>
    have hfits := List.find?_some hfound
    exact ⟨suffix, List.mem_of_find?_eq_some hfound, List.isPrefixOf_iff_prefix.mp hfits, rfl⟩

/-- A whole number does not become one with a fraction: no point follows its digits. -/
theorem floatLength?_eq_none_of_integer (hrest : StartsBlank rest)
    (h : integerLength? (text ++ next) = some text.length) :
    floatLength? (text ++ rest) = none := by
  simp only [integerLength?, Option.bind_eq_bind, Option.bind_eq_some_iff,
    Option.some.injEq] at h
  obtain ⟨whole, hwhole, h⟩ := h
  have hdrop : ∀ cs, (text ++ cs).drop whole = text.drop whole ++ cs :=
    fun cs => List.drop_append_of_le_length (by omega)
  have hpoint : ∀ fraction, text.drop whole ++ rest ≠ '.' :: fraction := by
    intro fraction heq
    have hlength : (text.drop whole).length = text.length - whole := List.length_drop
    rw [hdrop] at h
    rcases Nat.eq_zero_or_pos (text.drop whole).length with hzero | hpos
    · rw [List.length_eq_zero_iff.mp hzero, List.nil_append] at heq
      have hblank := hrest '.' (by rw [heq]; rfl)
      cases hblank
    · obtain ⟨suffix, hmem, hfits, hsuffix⟩ :=
        @exists_suffix_of_suffixLength integerSuffixes (text.drop whole ++ next) (by omega)
      have hwholeSuffix : suffix = text.drop whole :=
        (List.prefix_of_prefix_length_le hfits (List.prefix_append _ _) (by omega)).eq_of_length
          (by omega)
      have hheads : ∀ suffix ∈ integerSuffixes, suffix.head?.all (· ≠ '.') := by decide +kernel
      have hhead := hheads suffix hmem
      rw [hwholeSuffix] at hhead
      obtain ⟨c, tail, hcons⟩ := List.exists_cons_of_length_pos hpos
      rw [hcons, List.cons_append, List.cons.injEq] at heq
      simp [hcons, heq.1] at hhead
  rw [floatLength?, digits?_append hrest hwhole (by omega)]
  simp only [Option.bind_eq_bind, Option.bind_some]
  split
  next fraction heq => exact absurd ((hdrop rest).symm.trans heq) (hpoint fraction)
  next => rfl

/-- No token opens a comment when a blank follows it. -/
theorem not_opens_comment {taken : Pattern} (htaken : taken ∈ order) (hrest : StartsBlank rest)
    (htoken : (taken.terminal? text).isSome)
    (h : taken.length? (text ++ next) = some text.length) {mark : Char}
    (hmark : mark = '*' ∨ mark = '/') : ¬ ['/', mark] <+: text ++ rest := by
  intro hopens
  have hword : ['/', mark].any isBlank = false := by
    rcases hmark with rfl | rfl <;> decide
  have hinner := prefix_of_prefix_append hrest hword hopens
  obtain ⟨tail, rfl⟩ := hinner
  have hbegins : taken.begins '/' := begins_of_length? h
  rcases slash_of_begins taken htaken hbegins with rfl | rfl | rfl | rfl
  · cases htoken
  · cases htoken
  · have hspelling := eq_spelling_of_spellingLength? h
    rcases hmark with rfl | rfl <;> simp [Terminal.spelling?] at hspelling
  · have hspelling := eq_spelling_of_spellingLength? h
    rcases hmark with rfl | rfl <;> simp [Terminal.spelling?] at hspelling

/-- Before a blank, no pattern fits a token that did not fit it where the token was read. -/
theorem isSome_length?_of_append {taken other : Pattern} (htaken : taken ∈ order)
    (hother : other ∈ order) (hrest : StartsBlank rest) (htoken : (taken.terminal? text).isSome)
    (h : taken.length? (text ++ next) = some text.length)
    (hfits : (other.length? (text ++ rest)).isSome) : (other.length? (text ++ next)).isSome := by
  obtain ⟨m, hm⟩ := Option.isSome_iff_exists.mp hfits
  obtain ⟨c, tail, rfl⟩ := List.exists_cons_of_length_pos (length?_bounds h).1
  have hbegins : other.begins c := begins_of_length? hm
  have hself : taken.begins c := begins_of_length? h
  cases other with
  | float =>
    rcases isNumber_of_begins hbegins taken htaken hself with rfl | rfl
    · rw [h]; rfl
    · rw [length?, floatLength?_eq_none_of_integer hrest h] at hm
      cases hm
  | integer =>
    have hdigit : c.isDigit := hbegins
    simp [length?, integerLength?, digits?, hdigit]
  | word =>
    have hstart : startsWord c := hbegins
    simp [length?, wordLength?, hstart]
  | string =>
    obtain rfl : c = '"' := by simpa [begins] using hbegins
    obtain rfl := eq_string_of_begins taken htaken hself
    rw [h]; rfl
  | blockComment =>
    apply absurd _ (not_opens_comment htaken hrest htoken h (.inl rfl))
    simp only [length?, blockCommentLength?] at hm
    split at hm
    next body heq => exact heq ▸ List.prefix_append ['/', '*'] body
    next => cases hm
  | blank =>
    obtain rfl := eq_blank_of_begins hbegins taken htaken hself
    cases htoken
  | lineComment =>
    apply absurd _ (not_opens_comment htaken hrest htoken h (.inr rfl))
    simp only [length?, lineCommentLength?] at hm
    split at hm
    next body heq => exact heq ▸ List.prefix_append ['/', '/'] body
    next => cases hm
  | character =>
    obtain rfl : c = '\'' := by simpa [begins] using hbegins
    obtain rfl := eq_character_of_begins taken htaken hself
    rw [h]; rfl
  | operator terminal =>
    simp only [length?, spellingLength?, Option.bind_eq_bind, Option.bind_eq_some_iff] at hm
    obtain ⟨spelled, hspelled, hm⟩ := hm
    split at hm
    next hopens =>
      rw [List.isPrefixOf_iff_prefix] at hopens
      have hinner := prefix_of_prefix_append hrest (any_isBlank_spelling hspelled) hopens
      have hnext : spelled.toList <+: c :: tail ++ next := hinner.trans (List.prefix_append _ _)
      rw [List.cons_append] at hnext
      simp [length?, spellingLength?, hspelled, hnext]
    next => cases hm

end Following

/-- A token is read again before a blank. -/
theorem first?_append {text next rest : List Char} {pattern : Pattern} (hrest : StartsBlank rest)
    (htoken : (pattern.terminal? text).isSome)
    (h : first? (text ++ next) = some (pattern, text.length)) :
    first? (text ++ rest) = some (pattern, text.length) := by
  rw [first?_eq_some_iff] at h ⊢
  obtain ⟨before, after, horder, hfits, hbefore⟩ := h
  refine ⟨before, after, horder, length?_append hrest htoken hfits, ?_⟩
  intro earlier hearlier
  have hmem : earlier ∈ order := by rw [horder]; exact List.mem_append_left _ hearlier
  have htaken : pattern ∈ order := by simp [horder]
  rw [← Option.not_isSome_iff_eq_none]
  intro hsome
  have hnext := isSome_length?_of_append htaken hmem hrest htoken hfits hsome
  rw [hbefore earlier hearlier] at hnext
  cases hnext

end Pattern

end CrateAnalysis
