import CrateAnalysis.Proofs.Token.Recovery
import CrateAnalysis.Proofs.Token.Separator

/-!
# One scan over the whole text

The recovery loop cuts the text off after each stray and counts lines and columns within what is
left. `scan` does neither: it moves once over the whole text from left to right, sees what lies
behind a place as well as what lies ahead of it, and counts lines and columns from the start of
the text.

Of the patterns only a string looks behind, to find out whether a backslash stands before the place
where its closing quote is searched for. The opening quote always lies between that place and what
came before the string, so a string is the same with and without the text behind it. The main
statement is that tokens and diagnostics are those of the scan.
-/

set_option autoImplicit false

namespace CrateAnalysis

namespace Pattern

/-! ## Looking behind -/

/-- How many characters some pairs of backslashes and the quote after them take. -/
def pairsToQuote? : List Char → Option Nat
  | '"' :: _ => some 1
  | '\\' :: '\\' :: cs => (pairsToQuote? cs).map (· + 2)
  | _ => none

/-- How many characters lead up to the closing quote of a string, that quote included, when the
quote is searched for in the whole text: the place is moved on along the line until no backslash
stands before it and pairs of backslashes lead from it to a quote. What lies behind the place is
given backwards. -/
def closingQuote? (behind : List Char) : (ahead : List Char) → Option Nat
  | [] => none
  | c :: ahead =>
    (if behind.head? = some '\\' then none else pairsToQuote? (c :: ahead)).or
      (if c = '\n' then none else (closingQuote? (c :: behind) ahead).map (· + 1))

/-- How many characters a pattern takes in a text of which both sides of the place are seen. -/
def lengthAt? (pattern : Pattern) (behind ahead : List Char) : Option Nat :=
  match pattern, ahead with
  | .string, '"' :: cs => (closingQuote? ('"' :: behind) cs).map (· + 1)
  | .string, _ => none
  | pattern, ahead => pattern.length? ahead

/-- The first pattern that fits at a place of a text, with the number of characters it takes. -/
def firstAt? (behind ahead : List Char) : Option (Pattern × Nat) :=
  order.findSome? fun pattern => (pattern.lengthAt? behind ahead).map (pattern, ·)

/-- Pairs of backslashes and a quote end a string wherever an even number of backslashes was read
before them. -/
theorem stringTail?_of_pairsToQuote? {cs : List Char} {n : Nat} (h : pairsToQuote? cs = some n) :
    stringTail? false cs = some n := by
  fun_induction pairsToQuote? cs generalizing n with
  | case1 cs =>
    rw [← h]
    simp [stringTail?]
  | case2 cs ih =>
    obtain ⟨m, hm, rfl⟩ := Option.map_eq_some_iff.mp h
    simp [stringTail?, ih hm]
  | case3 => cases h

/-- Pairs of backslashes before a quote lead to it. -/
theorem pairsToQuote?_replicate_quote (pairs : Nat) (cs : List Char) :
    pairsToQuote? (List.replicate (2 * pairs) '\\' ++ '"' :: cs) = some (2 * pairs + 1) := by
  induction pairs with
  | zero => rfl
  | succ pairs ih =>
    rw [Nat.mul_succ, List.replicate_succ, List.replicate_succ, List.cons_append, List.cons_append,
      pairsToQuote?, ih]
    rfl

/-- A character that neither ends the line nor closes the string is read over. -/
theorem stringTail?_cons {odd : Bool} {c : Char} (hline : c ≠ '\n') (hquote : c = '"' → odd = true)
    (cs : List Char) :
    stringTail? odd (c :: cs) = (stringTail? (decide (c = '\\') && !odd) cs).map (· + 1) := by
  rw [stringTail?, if_neg hline]
  cases odd with
  | true => simp
  | false =>
    have hc : c ≠ '"' := fun h => Bool.false_ne_true (hquote h)
    simp [hc]

/-- Where pairs of backslashes lead to no quote from the beginning of the run behind the place, the
search moves on over the next character. -/
theorem closingQuote?_cons {run : Nat} {d c : Char} (behind : List Char) {cs : List Char}
    (hnone : pairsToQuote? (List.replicate run '\\' ++ c :: cs) = none) :
    closingQuote? (List.replicate run '\\' ++ d :: behind) (c :: cs) =
      if c = '\n' then none
      else (closingQuote? (c :: (List.replicate run '\\' ++ d :: behind)) cs).map (· + 1) := by
  rw [closingQuote?]
  cases run with
  | zero =>
    rw [List.replicate_zero, List.nil_append] at hnone ⊢
    rw [hnone, ite_self, Option.none_or]
  | succ run =>
    rw [List.replicate_succ, List.cons_append, List.head?_cons, if_pos rfl, Option.none_or]

/-- After a run of backslashes the search stands where the string reader stands that remembers
whether the run is odd, provided that no pairs lead from the beginning of the run to a quote. -/
theorem closingQuote?_replicate {run : Nat} {d : Char} (hd : d ≠ '\\') (behind : List Char)
    {cs : List Char} (hrun : run ≠ 0 → pairsToQuote? (List.replicate run '\\' ++ cs) = none) :
    closingQuote? (List.replicate run '\\' ++ d :: behind) cs =
      stringTail? (decide (run % 2 = 1)) cs := by
  induction cs generalizing run d behind with
  | nil => rfl
  | cons c cs ih =>
    cases hpairs : pairsToQuote? (List.replicate run '\\' ++ c :: cs) with
    | some n =>
      -- only at the beginning of a run may pairs lead to a quote
      have hzero : run = 0 := by
        apply Decidable.byContradiction
        intro hne
        rw [hrun hne] at hpairs
        cases hpairs
      subst hzero
      rw [List.replicate_zero, List.nil_append] at hpairs ⊢
      have hhead : (d :: behind).head? ≠ some '\\' := by simpa using hd
      rw [closingQuote?, if_neg hhead, hpairs, Option.some_or]
      exact (stringTail?_of_pairsToQuote? hpairs).symm
    | none =>
      rw [closingQuote?_cons behind hpairs]
      by_cases hline : c = '\n'
      · simp [hline, stringTail?]
      · have hquote : c = '"' → decide (run % 2 = 1) = true := by
          rintro rfl
          rcases Nat.mod_two_eq_zero_or_one run with heven | hodd
          · rw [show run = 2 * (run / 2) by omega, pairsToQuote?_replicate_quote] at hpairs
            cases hpairs
          · simp [hodd]
        rw [if_neg hline, stringTail?_cons hline hquote]
        congr 1
        by_cases hc : c = '\\'
        · subst hc
          have hlonger : closingQuote? (List.replicate (run + 1) '\\' ++ d :: behind) cs =
              stringTail? (decide ((run + 1) % 2 = 1)) cs := by
            apply ih hd behind
            intro _
            rw [List.replicate_succ', List.append_assoc]
            exact hpairs
          rw [List.replicate_succ, List.cons_append] at hlonger
          rw [hlonger]
          rcases Nat.mod_two_eq_zero_or_one run with h | h <;> simp [h, Nat.add_mod]
        · have hshort := @ih 0 c hc (List.replicate run '\\' ++ d :: behind)
            (fun h => absurd rfl h)
          simpa [hc] using hshort

/-- What a pattern takes does not depend on what lies behind. -/
theorem lengthAt?_eq (pattern : Pattern) (behind ahead : List Char) :
    pattern.lengthAt? behind ahead = pattern.length? ahead := by
  have hstring : ∀ cs, closingQuote? ('"' :: behind) cs = stringTail? false cs := by
    intro cs
    exact @closingQuote?_replicate 0 '"' (by decide) behind cs (fun h => absurd rfl h)
  unfold lengthAt?
  split
  · rw [hstring]
    rfl
  next hquote =>
    show none = stringLength? ahead
    unfold stringLength?
    split
    next cs => exact absurd rfl (hquote cs)
    next => rfl
  next => rfl

/-- To see what lies behind the place makes no difference to the first pattern that fits. -/
theorem firstAt?_eq (behind ahead : List Char) : firstAt? behind ahead = first? ahead := by
  simp only [firstAt?, first?, lengthAt?_eq]

/-- The segment of what a pattern has taken. -/
def segment (pattern : Pattern) (text : List Char) : Segment :=
  match pattern.terminal? text with
  | some terminal => .token terminal text
  | none => .layout text

/-- A segment has the text that was taken. -/
theorem text_segment (pattern : Pattern) (text : List Char) :
    (pattern.segment text).text = text := by
  unfold segment
  split <;> rfl

/-- A token has the terminal of its pattern and its text. -/
theorem terminal?_of_segment {pattern : Pattern} {text other : List Char} {terminal : Terminal}
    (h : pattern.segment text = .token terminal other) :
    pattern.terminal? text = some terminal := by
  unfold segment at h
  split at h
  next hterminal =>
    obtain ⟨rfl, -⟩ := Segment.token.inj h
    exact hterminal
  next => cases h

/-- What a pattern has taken makes a token if the pattern is that of a terminal. -/
theorem token?_segment (pattern : Pattern) (text : List Char) (position : Position) :
    Segment.token? (pattern.segment text, position) =
      (pattern.terminal? text).map (⟨·.name, String.ofList text, position⟩) := by
  unfold segment
  cases pattern.terminal? text <;> rfl

/-- What a pattern has taken makes no diagnostic. -/
theorem diagnostic?_segment (pattern : Pattern) (text : List Char) (position : Position) :
    Segment.diagnostic? (pattern.segment text, position) = none := by
  unfold segment
  cases pattern.terminal? text <;> rfl

end Pattern

/-! ## The scan -/

/-- The segments of the rest of a text, each with its position. At each place the first pattern
that fits takes its characters; where none fits, the next character is a stray of its own. What
lies behind the place is given backwards, and `position` is that of the place in the text. -/
def scan (position : Position) (behind : List Char) : (ahead : List Char) →
    List (Segment × Position)
  | [] => []
  | c :: cs =>
    match Pattern.firstAt? behind (c :: cs) with
    | some (pattern, n + 1) =>
      let text := c :: cs.take n
      (pattern.segment text, position) ::
        scan (text.foldl Position.advance position) (text.reverse ++ behind) (cs.drop n)
    | _ => (.stray c, position) :: scan (position.advance c) (c :: behind) cs
termination_by ahead => ahead.length

/-- There is nothing to scan at the end. -/
theorem scan_nil (position : Position) (behind : List Char) : scan position behind [] = [] := by
  rw [scan]

/-- The scan goes on after what the first pattern that fits has taken. -/
theorem scan_take {text rest : List Char} {pattern : Pattern} (position : Position)
    (behind : List Char) (h : Pattern.first? (text ++ rest) = some (pattern, text.length)) :
    scan position behind (text ++ rest) =
      (pattern.segment text, position) ::
        scan (text.foldl Position.advance position) (text.reverse ++ behind) rest := by
  obtain ⟨c, tail, rfl⟩ := List.exists_cons_of_length_pos (Pattern.pos_of_first? h)
  rw [List.cons_append, List.length_cons] at h
  rw [List.cons_append, scan, Pattern.firstAt?_eq, h]
  simp only [List.take_left, List.drop_left]

/-- The scan goes on after a character at which no pattern fits. -/
theorem scan_stray {c : Char} {rest : List Char} (position : Position) (behind : List Char)
    (h : Pattern.first? (c :: rest) = none) :
    scan position behind (c :: rest) =
      (.stray c, position) :: scan (position.advance c) (c :: behind) rest := by
  rw [scan, Pattern.firstAt?_eq, h]

/-- Induction along a scan: over what a pattern takes at each place, or over a stray. -/
@[elab_as_elim]
theorem scanInduction {motive : List Char → Prop} (nil : motive [])
    (take : ∀ (pattern : Pattern) (text rest : List Char),
      Pattern.first? (text ++ rest) = some (pattern, text.length) → motive rest →
      motive (text ++ rest))
    (stray : ∀ (c : Char) (rest : List Char), Pattern.first? (c :: rest) = none → motive rest →
      motive (c :: rest))
    (cs : List Char) : motive cs := by
  induction hlength : cs.length using Nat.strongRecOn generalizing cs with
  | ind length ih =>
    cases cs with
    | nil => exact nil
    | cons c cs =>
      cases hfirst : Pattern.first? (c :: cs) with
      | none =>
        apply stray c cs hfirst
        apply ih cs.length _ cs rfl
        rw [← hlength, List.length_cons]
        exact Nat.lt_succ_self _
      | some found =>
        obtain ⟨pattern, n⟩ := found
        have hbounds := Pattern.length?_bounds (Pattern.length?_of_first? hfirst).2
        have htaken : ((c :: cs).take n).length = n := List.length_take_of_le hbounds.2
        have hrest : ((c :: cs).drop n).length = (c :: cs).length - n := List.length_drop
        rw [← List.take_append_drop n (c :: cs)] at hfirst ⊢
        apply take pattern
        · rw [htaken]
          exact hfirst
        · apply ih _ _ _ rfl
          omega

/-! ## The places of a scan -/

/-- The characters of some segments, one after another. -/
def textOf (segments : List (Segment × Position)) : List Char :=
  segments.flatMap fun segment => segment.1.text

/-- A scan loses nothing. -/
theorem textOf_scan (position : Position) (behind cs : List Char) :
    textOf (scan position behind cs) = cs := by
  induction cs using scanInduction generalizing position behind with
  | nil => rw [scan_nil]; rfl
  | take pattern text rest hfits ih =>
    rw [scan_take position behind hfits, textOf, List.flatMap_cons, ← textOf, ih,
      Pattern.text_segment]
  | stray c rest hnone ih =>
    rw [scan_stray position behind hnone, textOf, List.flatMap_cons, ← textOf, ih]
    rfl

/-- After some of its segments a scan stands in the text behind them and goes on from there. -/
theorem eq_scan_of_append {position : Position} {behind cs : List Char}
    {earlier later : List (Segment × Position)}
    (h : scan position behind cs = earlier ++ later) :
    later = scan ((textOf earlier).foldl Position.advance position)
      ((textOf earlier).reverse ++ behind) (textOf later) := by
  induction earlier generalizing position behind cs with
  | nil =>
    rw [List.nil_append] at h
    rw [← h, textOf_scan]
    rfl
  | cons segment earlier ih =>
    rw [List.cons_append] at h
    cases cs using scanInduction with
    | nil =>
      rw [scan_nil] at h
      cases h
    | take pattern text rest hfits =>
      rw [scan_take position behind hfits] at h
      obtain ⟨rfl, htail⟩ := List.cons.inj h
      rw [textOf, List.flatMap_cons, ← textOf, Pattern.text_segment, List.foldl_append,
        List.reverse_append, List.append_assoc]
      exact ih htail
    | stray c rest hnone =>
      rw [scan_stray position behind hnone] at h
      obtain ⟨rfl, htail⟩ := List.cons.inj h
      rw [textOf, List.flatMap_cons, ← textOf, Segment.text, List.foldl_append,
        List.reverse_append, List.append_assoc]
      exact ih htail

/-- What the first segment of a scan is: a stray at which no pattern fits, or what the first pattern
that fits takes. It has the position at which the scan begins. -/
theorem eq_of_scan_eq_cons {position place : Position} {behind cs : List Char} {segment : Segment}
    {later : List (Segment × Position)}
    (h : scan position behind cs = (segment, place) :: later) :
    cs = segment.text ++ textOf later ∧ place = position ∧
      ((∃ c, segment = .stray c ∧ Pattern.first? cs = none) ∨
        ∃ pattern, segment = pattern.segment segment.text ∧
          Pattern.first? cs = some (pattern, segment.text.length)) := by
  have hwhole : cs = segment.text ++ textOf later := by
    rw [← textOf_scan position behind cs, h, textOf, List.flatMap_cons, ← textOf]
  refine ⟨hwhole, ?_⟩
  cases cs using scanInduction with
  | nil =>
    rw [scan_nil] at h
    cases h
  | take pattern text rest hfits =>
    rw [scan_take position behind hfits] at h
    obtain ⟨hhead, -⟩ := List.cons.inj h
    obtain ⟨rfl, rfl⟩ := Prod.mk.inj hhead
    refine ⟨rfl, .inr ⟨pattern, ?_, ?_⟩⟩
    · rw [Pattern.text_segment]
    · rw [Pattern.text_segment]
      exact hfits
  | stray c rest hnone =>
    rw [scan_stray position behind hnone] at h
    obtain ⟨hhead, -⟩ := List.cons.inj h
    obtain ⟨rfl, rfl⟩ := Prod.mk.inj hhead
    exact ⟨rfl, .inl ⟨c, rfl, hnone⟩⟩

/-- The same at any place of the scan of a source text: the segment stands where the text before it
ends. -/
theorem eq_of_scan_eq_append {code : List Char} {earlier later : List (Segment × Position)}
    {segment : Segment} {place : Position}
    (h : scan .start [] code = earlier ++ (segment, place) :: later) :
    place = endPosition (textOf earlier) ∧
      ((∃ c, segment = .stray c ∧ Pattern.first? (segment.text ++ textOf later) = none) ∨
        ∃ pattern, segment = pattern.segment segment.text ∧
          Pattern.first? (segment.text ++ textOf later) =
            some (pattern, segment.text.length)) := by
  obtain ⟨hwhole, hplace, hcases⟩ := eq_of_scan_eq_cons (eq_scan_of_append h).symm
  rw [hwhole] at hcases
  refine ⟨?_, hcases⟩
  rw [hplace]
  exact foldl_advance_endPosition [] (textOf earlier)

/-- At a place of a source text the scan goes on from the position at which the text before it
ends. -/
theorem exists_eq_scan {code : List Char} {earlier later : List (Segment × Position)}
    (h : scan .start [] code = earlier ++ later) :
    ∃ behind, later = scan (endPosition (textOf earlier)) behind (textOf later) := by
  have hplace : (textOf earlier).foldl Position.advance .start = endPosition (textOf earlier) :=
    foldl_advance_endPosition [] (textOf earlier)
  rw [← hplace]
  exact ⟨_, eq_scan_of_append h⟩

/-! ## The scan finds what the restarts find -/

/-- What is scanned, if `read` was read up to a stop: it ends there as well, or goes on with the
stray, which stands where the text before it ends. -/
inductive Resumes (read : List (Segment × Position)) :
    List (Segment × Position) → Option (Stray × List Char) → Prop
  | finish : Resumes read read none
  | restart {c : Char} {before behind rest : List Char} :
      Resumes read
        (read ++ (.stray c, endPosition before) :: scan (endPosition (before ++ [c])) behind rest)
        (some (⟨c, endPosition before⟩, rest))

/-- One segment more in front of both changes nothing about where they part. -/
theorem Resumes.cons {read scanned : List (Segment × Position)}
    {stop : Option (Stray × List Char)} (segment : Segment × Position)
    (h : Resumes read scanned stop) : Resumes (segment :: read) (segment :: scanned) stop := by
  cases h with
  | finish => exact .finish
  | restart => exact .restart

/-- A scan reads a stretch as the lexer does, and resumes at its stray. -/
theorem exists_resumes (before done behind : List Char) {base : Position} {cursor : Cursor}
    {cs : List Char} {lexemes : List Lexeme} {stop : Option (Stray × List Char)}
    (hbase : base = endPosition before) (hcursor : cursor = Cursor.start.after done)
    (h : lexStretch base cursor cs = (lexemes, stop)) :
    ∃ read, read.filterMap Segment.token? = lexemes.map Lexeme.token ∧
      read.filterMap Segment.diagnostic? = [] ∧
      Resumes read (scan (endPosition (before ++ done)) behind cs) stop := by
  have hplace : cursor.absolute base = endPosition (before ++ done) := by
    rw [hbase, hcursor, Cursor.absolute_after]
  induction cs using scanInduction generalizing done behind cursor lexemes stop with
  | nil =>
    rw [lexStretch] at h
    obtain ⟨rfl, rfl⟩ := Prod.mk.inj h
    refine ⟨[], rfl, rfl, ?_⟩
    rw [scan_nil]
    exact .finish
  | take pattern text rest hfits ih =>
    have hnext : cursor.after text = Cursor.start.after (done ++ text) := by
      rw [hcursor, Cursor.after_append]
    rw [lexStretch_append base cursor hfits] at h
    obtain ⟨rfl, rfl⟩ := Prod.mk.inj h
    obtain ⟨read, htokens, hdiagnostics, hresumes⟩ := ih (done ++ text) (text.reverse ++ behind)
      hnext rfl (by rw [hbase, hnext, Cursor.absolute_after])
    refine ⟨(pattern.segment text, endPosition (before ++ done)) :: read, ?_, ?_, ?_⟩
    · rw [List.filterMap_cons, Pattern.token?_segment, htokens, hplace]
      cases pattern.terminal? text with
      | none => rfl
      | some terminal => rfl
    · rw [List.filterMap_cons, Pattern.diagnostic?_segment, hdiagnostics]
    · rw [scan_take _ behind hfits, foldl_advance_endPosition, List.append_assoc]
      exact hresumes.cons _
  | stray c rest hnone ih =>
    rw [lexStretch, hnone] at h
    obtain ⟨rfl, rfl⟩ := Prod.mk.inj h
    refine ⟨[], rfl, rfl, ?_⟩
    rw [scan_stray _ behind hnone, ← endPosition_append_singleton, hplace]
    exact .restart

/-- A scan of a whole text finds the lexemes and the strays that lexing with restarts finds. -/
theorem filterMap_scan (before behind cs : List Char) {base : Position}
    (hbase : base = endPosition before) :
    (scan base behind cs).filterMap Segment.token? = (lexAll base cs).1.map Lexeme.token ∧
      (scan base behind cs).filterMap Segment.diagnostic? =
        (lexAll base cs).2.map Stray.diagnostic := by
  fun_induction lexAll base cs generalizing before behind with
  | case1 base cs lexemes h =>
    obtain ⟨read, htokens, hdiagnostics, hresumes⟩ := exists_resumes before [] behind hbase rfl h
    rw [List.append_nil, ← hbase] at hresumes
    generalize scan base behind cs = whole at hresumes ⊢
    cases hresumes with
    | finish => exact ⟨htokens, hdiagnostics⟩
  | case2 base cs lexemes stray rest h laterLexemes laterStrays hlater ih =>
    obtain ⟨read, htokens, hdiagnostics, hresumes⟩ := exists_resumes before [] behind hbase rfl h
    rw [List.append_nil, ← hbase] at hresumes
    generalize scan base behind cs = whole at hresumes ⊢
    cases hresumes with
    | @restart c earlier behind =>
      have hrest := ih (earlier ++ [c]) behind (endPosition_append_singleton earlier c).symm
      rw [hlater, ← endPosition_append_singleton] at hrest
      obtain ⟨hlaterTokens, hlaterDiagnostics⟩ := hrest
      constructor
      · rw [List.filterMap_append, List.filterMap_cons, htokens, List.map_append,
          ← hlaterTokens]
        rfl
      · rw [List.filterMap_append, List.filterMap_cons, hdiagnostics, List.map_cons,
          ← hlaterDiagnostics]
        rfl

/-- The tokens of a text, apart from the end of input, are those of its scan. -/
theorem tokens_tokenize (code : String) :
    (tokenize code).tokens.dropLast =
      (scan .start [] code.toList).filterMap Segment.token? := by
  rw [tokenize, List.dropLast_concat]
  exact (filterMap_scan [] [] code.toList (show Position.start = endPosition [] from rfl)).1.symm

/-- The diagnostics of a text are the strays of its scan. -/
theorem diagnostics_tokenize (code : String) :
    (tokenize code).diagnostics = (scan .start [] code.toList).filterMap Segment.diagnostic? :=
  (filterMap_scan [] [] code.toList (show Position.start = endPosition [] from rfl)).2.symm

/-- The tokens and the diagnostics of a source text as one scan finds them. The end of input
stands where the characters of the text lead. -/
def scanned (code : String) : LexOutcome :=
  { tokens := (scan .start [] code.toList).filterMap Segment.token? ++
      [Token.ofEnd (code.toList.foldl Position.advance .start)]
    diagnostics := (scan .start [] code.toList).filterMap Segment.diagnostic? }

/-- Beginning anew after each stray changes nothing: tokens and diagnostics, with their texts, kinds
and positions, are those of one scan over the whole text. The recovery loop, which cuts the text off
at an offset and shifts the positions by those of the place, ends with them as well. -/
theorem tokenize_eq_scanned (code : String) :
    tokenize code = scanned code ∧
      Recovery.Ends code.toList (scanned code).diagnostics.length .start (scanned code) := by
  have hstart : Position.start = endPosition [] := rfl
  have hend : code.toList.foldl Position.advance .start = endPosition code.toList :=
    foldl_advance_endPosition [] code.toList
  obtain ⟨htokens, hdiagnostics⟩ := filterMap_scan [] [] code.toList hstart
  have heq : scanned code = tokenize code := by
    rw [scanned, htokens, hdiagnostics, hend]
    rfl
  refine ⟨heq.symm, ?_⟩
  have hends := Recovery.ends_lexAll code.toList [] code.toList hstart
    (show Recovery.start.base = .start from rfl) rfl
  rw [heq]
  simpa [tokenize, Recovery.start] using hends

end CrateAnalysis
