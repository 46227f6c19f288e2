import CrateAnalysis.Token.Pattern

/-!
# What patterns take

A pattern that fits takes at least one character and no more than there are, so the text it
takes and the text that follows make up the text it was tried on. The three patterns of layout
take a run of blanks, a block comment up to its first closing mark, or a line comment with the
whole rest of its line; `Layout` says so without reference to lengths.
-/

set_option autoImplicit false

namespace CrateAnalysis

namespace Pattern

/-- A run ends within the text. -/
theorem runLength_le (p : Char → Bool) (cs : List Char) : runLength p cs ≤ cs.length :=
  (List.takeWhile_prefix p).length_le

/-- The characters of a run are those up to the first that is not of it. -/
theorem take_runLength (p : Char → Bool) (cs : List Char) :
    cs.take (runLength p cs) = cs.takeWhile p :=
  ((List.prefix_iff_eq_take.mp (List.takeWhile_prefix p))).symm

/-- What follows a run begins with a character that is not of it. -/
theorem drop_runLength (p : Char → Bool) (cs : List Char) :
    cs.drop (runLength p cs) = cs.dropWhile p := by
  have hdrop : (cs.takeWhile p ++ cs.dropWhile p).drop (runLength p cs) = cs.dropWhile p :=
    List.drop_left
  rwa [List.takeWhile_append_dropWhile] at hdrop

/-- A character with a run after it, if it may begin one, is not empty and ends within the text. -/
theorem bounds_of_run {begins inside : Char → Bool} {c : Char} {cs : List Char} {n : Nat}
    (h : (if begins c then some (runLength inside cs + 1) else none) = some n) :
    0 < n ∧ n ≤ (c :: cs).length := by
  split at h
  · have hrun := runLength_le inside cs
    rw [Option.some.injEq] at h
    rw [List.length_cons]
    omega
  · cases h

/-- A run of digits is not empty and ends within the text. -/
theorem digits?_bounds {cs : List Char} {n : Nat} (h : digits? cs = some n) :
    0 < n ∧ n ≤ cs.length := by
  cases cs with
  | nil => cases h
  | cons c cs => exact bounds_of_run h

/-- An exponent ends within the text. -/
theorem exponentLength_le (cs : List Char) : exponentLength cs ≤ cs.length := by
  unfold exponentLength
  split
  next c rest =>
    split
    · extract_lets signed
      have hle : signed ≤ rest.length := by
        unfold signed
        cases rest with
        | nil => simp
        | cons s rest =>
          dsimp only
          rw [List.length_cons]
          split <;> omega
      have hrun := runLength_le Char.isDigit (rest.drop signed)
      rw [List.length_drop] at hrun
      split
      · omega
      next n hn =>
        rw [hn] at hrun
        simp only [List.length_cons]
        omega
    · omega
  next => simp

/-- A suffix ends within the text. -/
theorem suffixLength_le (suffixes : List (List Char)) (cs : List Char) :
    suffixLength suffixes cs ≤ cs.length := by
  unfold suffixLength
  cases h : suffixes.find? (·.isPrefixOf cs) with
  | none => simp
  | some suffix =>
    have hfits := List.find?_some h
    simpa using (List.isPrefixOf_iff_prefix.mp hfits).length_le

/-- A float is not empty and ends within the text. -/
theorem floatLength?_bounds {cs : List Char} {n : Nat} (h : floatLength? cs = some n) :
    0 < n ∧ n ≤ cs.length := by
  unfold floatLength? at h
  simp only [Option.bind_eq_bind, Option.bind_eq_some_iff] at h
  obtain ⟨whole, hwhole, h⟩ := h
  have hw := digits?_bounds hwhole
  split at h
  next fraction hdrop =>
    simp only [Option.bind_eq_some_iff, Option.some.injEq] at h
    obtain ⟨part, hpart, h⟩ := h
    have hp := digits?_bounds hpart
    have he := exponentLength_le (fraction.drop part)
    have hs := suffixLength_le floatSuffixes
      (fraction.drop (part + exponentLength (fraction.drop part)))
    have hlen := congrArg List.length hdrop
    simp only [List.length_drop, List.length_cons] at he hs hlen
    omega
  next => exact absurd h (by simp)

/-- An integer is not empty and ends within the text. -/
theorem integerLength?_bounds {cs : List Char} {n : Nat} (h : integerLength? cs = some n) :
    0 < n ∧ n ≤ cs.length := by
  unfold integerLength? at h
  simp only [Option.bind_eq_bind, Option.bind_eq_some_iff, Option.some.injEq] at h
  obtain ⟨whole, hwhole, h⟩ := h
  have hw := digits?_bounds hwhole
  have hs := suffixLength_le integerSuffixes (cs.drop whole)
  rw [List.length_drop] at hs
  omega

/-- A word is not empty and ends within the text. -/
theorem wordLength?_bounds {cs : List Char} {n : Nat} (h : wordLength? cs = some n) :
    0 < n ∧ n ≤ cs.length := by
  cases cs with
  | nil => cases h
  | cons c cs => exact bounds_of_run h

/-- What closes a string is not empty and ends within the text. -/
theorem stringTail?_bounds {odd : Bool} {cs : List Char} {n : Nat}
    (h : stringTail? odd cs = some n) : 0 < n ∧ n ≤ cs.length := by
  fun_induction stringTail? odd cs generalizing n with
  | case1 => simp at h
  | case2 => simp at h
  | case3 c cs _ ih =>
    obtain ⟨m, hm, rfl⟩ := Option.map_eq_some_iff.mp h
    have := ih hm
    simp only [List.length_cons]
    omega
  | case4 => simp_all; omega
  | case5 odd c cs _ _ _ ih =>
    obtain ⟨m, hm, rfl⟩ := Option.map_eq_some_iff.mp h
    have := ih hm
    simp only [List.length_cons]
    omega

/-- A string is not empty and ends within the text. -/
theorem stringLength?_bounds {cs : List Char} {n : Nat} (h : stringLength? cs = some n) :
    0 < n ∧ n ≤ cs.length := by
  unfold stringLength? at h
  split at h
  next rest =>
    obtain ⟨m, hm, rfl⟩ := Option.map_eq_some_iff.mp h
    have := stringTail?_bounds hm
    simp only [List.length_cons]
    omega
  next => exact absurd h (by simp)

/-- The tail of a block comment is a body without a closing mark, and then that mark. -/
theorem eq_append_of_blockCommentTail? {cs : List Char} {n : Nat}
    (h : blockCommentTail? cs = some n) :
    ∃ body rest, cs = body ++ '*' :: '/' :: rest ∧ n = body.length + 2 ∧
      ¬ ['*', '/'] <:+: body := by
  fun_induction blockCommentTail? cs generalizing n with
  | case1 rest =>
    simp only [Option.some.injEq] at h
    exact ⟨[], rest, rfl, h.symm, by simp⟩
  | case2 c cs hopen ih =>
    obtain ⟨m, hm, rfl⟩ := Option.map_eq_some_iff.mp h
    obtain ⟨body, rest, rfl, rfl, hbody⟩ := ih hm
    refine ⟨c :: body, rest, rfl, rfl, ?_⟩
    -- a closing mark in the longer body would have to begin at its first character
    rw [List.infix_cons_iff]
    rintro (hopens | hinfix)
    · rw [List.cons_prefix_cons] at hopens
      obtain ⟨rfl, tail, htail⟩ := hopens
      exact hopen (tail ++ '*' :: '/' :: rest) rfl (by rw [← htail]; rfl)
    · exact hbody hinfix
  | case3 => simp at h

/-- A block comment is not empty and ends within the text. -/
theorem blockCommentLength?_bounds {cs : List Char} {n : Nat}
    (h : blockCommentLength? cs = some n) : 0 < n ∧ n ≤ cs.length := by
  unfold blockCommentLength? at h
  split at h
  next rest =>
    obtain ⟨m, hm, rfl⟩ := Option.map_eq_some_iff.mp h
    obtain ⟨body, after, rfl, rfl, -⟩ := eq_append_of_blockCommentTail? hm
    simp only [List.length_cons, List.length_append]
    omega
  next => exact absurd h (by simp)

/-- A run of blanks that is taken is not empty and ends within the text. -/
theorem blankLength?_bounds {cs : List Char} {n : Nat} (h : blankLength? cs = some n) :
    0 < n ∧ n ≤ cs.length := by
  have hle := runLength_le isBlank cs
  unfold blankLength? at h
  split at h
  · exact absurd h (by simp)
  next m hm =>
    simp only [Option.some.injEq] at h
    omega

/-- A line comment is not empty and ends within the text. -/
theorem lineCommentLength?_bounds {cs : List Char} {n : Nat}
    (h : lineCommentLength? cs = some n) : 0 < n ∧ n ≤ cs.length := by
  unfold lineCommentLength? at h
  split at h
  next rest =>
    have := runLength_le (· ≠ '\n') rest
    simp only [Option.some.injEq] at h
    simp only [List.length_cons]
    omega
  next => exact absurd h (by simp)

/-- A character is not empty and ends within the text. -/
theorem characterLength?_bounds {cs : List Char} {n : Nat}
    (h : characterLength? cs = some n) : 0 < n ∧ n ≤ cs.length := by
  unfold characterLength? at h
  split at h
  next => split at h <;> simp_all; omega
  next => split at h <;> simp_all; omega
  next => exact absurd h (by simp)

/-- No spelling is empty. -/
theorem spelling?_ne_empty (terminal : Terminal) : terminal.spelling? ≠ some "" := by
  cases terminal <;> simp [Terminal.spelling?]

/-- A spelling is not empty and ends within the text. -/
theorem spellingLength?_bounds {terminal : Terminal} {cs : List Char} {n : Nat}
    (h : spellingLength? terminal.spelling? cs = some n) : 0 < n ∧ n ≤ cs.length := by
  unfold spellingLength? at h
  simp only [Option.bind_eq_bind, Option.bind_eq_some_iff] at h
  obtain ⟨text, htext, h⟩ := h
  split at h
  next hfits =>
    simp only [Option.some.injEq] at h
    have hle := (List.isPrefixOf_iff_prefix.mp hfits).length_le
    have hne : text.toList ≠ [] := by
      intro hnil
      apply spelling?_ne_empty terminal
      rw [htext, String.toList_eq_nil_iff.mp hnil]
    have := List.length_pos_iff.mpr hne
    omega
  next => exact absurd h (by simp)

/-- A pattern that fits takes at least one character, and no more than there are. -/
theorem length?_bounds {pattern : Pattern} {cs : List Char} {n : Nat}
    (h : pattern.length? cs = some n) : 0 < n ∧ n ≤ cs.length := by
  cases pattern with
  | float => exact floatLength?_bounds h
  | integer => exact integerLength?_bounds h
  | word => exact wordLength?_bounds h
  | string => exact stringLength?_bounds h
  | blockComment => exact blockCommentLength?_bounds h
  | blank => exact blankLength?_bounds h
  | lineComment => exact lineCommentLength?_bounds h
  | character => exact characterLength?_bounds h
  | operator terminal => exact spellingLength?_bounds h

/-- The first pattern that fits is one of the order, and it fits. -/
theorem length?_of_first? {cs : List Char} {pattern : Pattern} {n : Nat}
    (h : first? cs = some (pattern, n)) :
    pattern ∈ order ∧ pattern.length? cs = some n := by
  obtain ⟨p, hp, hfits⟩ := List.exists_of_findSome?_eq_some h
  obtain ⟨m, hm, heq⟩ := Option.map_eq_some_iff.mp hfits
  obtain ⟨rfl, rfl⟩ := Prod.mk.inj heq
  exact ⟨hp, hm⟩

/-- What is taken is not empty. -/
theorem pos_of_first? {cs : List Char} {pattern : Pattern} {n : Nat}
    (h : first? cs = some (pattern, n)) : 0 < n :=
  (length?_bounds (length?_of_first? h).2).1

end Pattern

/-- Text that only separates tokens, and what follows it: a run of blanks, a block comment up to
its first closing mark, or a line comment up to the end of its line. -/
inductive Layout : (text rest : List Char) → Prop
  | blank {text rest : List Char} :
      text ≠ [] → (∀ c ∈ text, Pattern.isBlank c) → Layout text rest
  | blockComment {body rest : List Char} :
      ¬ ['*', '/'] <:+: body → Layout ('/' :: '*' :: body ++ ['*', '/']) rest
  | lineComment {body rest : List Char} :
      '\n' ∉ body → (∀ c ∈ rest.head?, c = '\n') → Layout ('/' :: '/' :: body) rest

/-- Blanks are layout. -/
theorem layout_of_blankLength? {cs : List Char} {n : Nat}
    (hfits : Pattern.blankLength? cs = some n) : Layout (cs.take n) (cs.drop n) := by
  have hpos := (Pattern.blankLength?_bounds hfits).1
  unfold Pattern.blankLength? at hfits
  have hrun : n = Pattern.runLength Pattern.isBlank cs := by
    split at hfits
    · exact absurd hfits (by simp)
    next m hm =>
      simp only [Option.some.injEq] at hfits
      omega
  rw [hrun, Pattern.take_runLength]
  apply Layout.blank
  · apply List.ne_nil_of_length_pos
    rw [hrun] at hpos
    exact hpos
  · exact List.all_eq_true.mp List.all_takeWhile

/-- A block comment is layout. -/
theorem layout_of_blockCommentLength? {cs : List Char} {n : Nat}
    (hfits : Pattern.blockCommentLength? cs = some n) : Layout (cs.take n) (cs.drop n) := by
  unfold Pattern.blockCommentLength? at hfits
  split at hfits
  next rest =>
    obtain ⟨m, hm, rfl⟩ := Option.map_eq_some_iff.mp hfits
    obtain ⟨body, after, rfl, rfl, hbody⟩ := Pattern.eq_append_of_blockCommentTail? hm
    have htake : ('/' :: '*' :: (body ++ '*' :: '/' :: after)).take (body.length + 2 + 2) =
        '/' :: '*' :: body ++ ['*', '/'] := by
      simp [List.take_append, List.take_of_length_le]
    rw [htake]
    exact Layout.blockComment hbody
  next => exact absurd hfits (by simp)

/-- A line comment is layout. -/
theorem layout_of_lineCommentLength? {cs : List Char} {n : Nat}
    (hfits : Pattern.lineCommentLength? cs = some n) : Layout (cs.take n) (cs.drop n) := by
  unfold Pattern.lineCommentLength? at hfits
  split at hfits
  next rest =>
    simp only [Option.some.injEq] at hfits
    subst hfits
    rw [List.take_succ_cons, List.take_succ_cons, List.drop_succ_cons, List.drop_succ_cons,
      Pattern.take_runLength, Pattern.drop_runLength]
    apply Layout.lineComment
    · intro hmem
      simpa using List.all_eq_true.mp List.all_takeWhile '\n' hmem
    · intro c hc
      have hfirst := List.head?_dropWhile_not (· ≠ '\n') rest
      rw [Option.mem_def.mp hc] at hfirst
      simpa using hfirst
  next => exact absurd hfits (by simp)

/-- A pattern without a terminal takes layout. -/
theorem layout_of_length? {pattern : Pattern} {cs : List Char} {n : Nat}
    (hfits : pattern.length? cs = some n) (hlayout : pattern.terminal? (cs.take n) = none) :
    Layout (cs.take n) (cs.drop n) := by
  cases pattern with
  | blank => exact layout_of_blankLength? hfits
  | blockComment => exact layout_of_blockCommentLength? hfits
  | lineComment => exact layout_of_lineCommentLength? hfits
  | float => simp [Pattern.terminal?] at hlayout
  | integer => simp [Pattern.terminal?] at hlayout
  | word => simp [Pattern.terminal?] at hlayout
  | string => simp [Pattern.terminal?] at hlayout
  | character => simp [Pattern.terminal?] at hlayout
  | operator terminal => simp [Pattern.terminal?] at hlayout

end CrateAnalysis
