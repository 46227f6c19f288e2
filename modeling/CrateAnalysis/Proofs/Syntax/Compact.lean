import CrateAnalysis.Proofs.Grammar.Neighbours
import CrateAnalysis.Proofs.Token.Adjoining

/-!
# Types written without spaces

The tokens of a type can be written with spaces between them, or next to each other with a space
only between two words. The lexer does not know that it reads a type: of two closing angle brackets
in a row it makes the operator that shifts, and of two ampersands the one that joins conditions.
`munch` says which tokens come out: those of the type where no such pair occurs in it, and otherwise
one of these operators as well.
-/

set_option autoImplicit false

namespace CrateAnalysis

/-! ## Two ways of writing tokens -/

/-- Tokens with single spaces between them. -/
def spaced (tokens : List WrittenToken) : List Char :=
  [' '].intercalate (tokens.map (·.text))

/-- What has to stand between two tokens: a space between words, and nothing otherwise. -/
def gap (token next : WrittenToken) : List Char :=
  if token.terminal.isWord && next.terminal.isWord then [' '] else []

/-- Tokens next to each other, with a space only between two words. -/
def compact : List WrittenToken → List Char
  | [] => []
  | [token] => token.text
  | token :: next :: rest => token.text ++ gap token next ++ compact (next :: rest)

/-- The operator that is written as the terminal twice. -/
def Terminal.doubled? : Terminal → Option Terminal
  | .less => some .shiftLeft
  | .greater => some .shiftRight
  | .ampersand => some .andAnd
  | _ => none

/-- The operator that the longest match makes of two terminals in a row. -/
def Terminal.fuse? (terminal next : Terminal) : Option Terminal :=
  if terminal = next then terminal.doubled? else none

/-- The tokens that are read where some tokens are written without spaces. -/
def munch : List WrittenToken → List (Terminal × List Char)
  | [] => []
  | [token] => [token.shape]
  | token :: next :: rest =>
    match token.terminal.fuse? next.terminal with
    | some fused => (fused, token.text ++ next.text) :: munch rest
    | none => token.shape :: munch (next :: rest)

/-! ## The terminals of types -/

/-- No terminal of a type has a slash, with which a comment could begin. -/
theorem isPlain_of_mem_typeTerminals : ∀ terminal ∈ typeTerminals, terminal.isPlain := by
  decide +kernel

/-- Every terminal of a type ends before a closing parenthesis. -/
theorem stopsBefore_paren : ∀ terminal ∈ typeTerminals, terminal.stopsBefore ')' := by
  decide +kernel

/-- A sign of a type stops before another sign unless the two make one operator. -/
theorem stopsBefore_sign : ∀ terminal ∈ typeTerminals, ∀ next ∈ typeTerminals,
    next.isWord = false → terminal.fuse? next = none →
    ∀ spelling ∈ next.spelling?, spelling.toList.head?.all terminal.stopsBefore := by
  decide +kernel

/-- No operator goes on with what begins a word. -/
theorem goesOn_of_startsWord {terminal : Terminal} {c : Char} (hc : Pattern.startsWord c) :
    terminal.goesOn c = false := by
  have hletters : operatorCharacters.all fun c => !Pattern.startsWord c := by decide +kernel
  rw [← Bool.not_eq_true]
  intro h
  simp only [Terminal.goesOn, List.any_eq_true, Option.any_eq_true] at h
  obtain ⟨other, hother, longer, hlonger, spelling, -, hprefix⟩ := h
  rw [List.isPrefixOf_iff_prefix] at hprefix
  have hmem : c ∈ longer.toList := hprefix.subset (by simp)
  have hcharacter := Pattern.mem_operatorCharacters hother hlonger hmem
  have hnot := List.all_eq_true.mp hletters c hcharacter
  rw [hc] at hnot
  cases hnot

/-- Two terminals fuse just if they are the same one and an operator is written as it twice. -/
theorem fuse?_eq_some_iff {terminal next fused : Terminal} :
    terminal.fuse? next = some fused ↔ terminal = next ∧ terminal.doubled? = some fused := by
  rw [Terminal.fuse?, Option.ite_none_right_eq_some]

/-- One operator, written `longer`, is made of two terminals in a row, each written `spelling`, and
no other operator goes on from there. -/
structure Doubles (terminal fused : Terminal) (spelling longer : String) : Prop where
  spelling?_eq : terminal.spelling? = some spelling
  spelling?_fused : fused.spelling? = some longer
  toList_longer : longer.toList = spelling.toList ++ spelling.toList
  isWord_eq_false : terminal.isWord = false
  mem_operators : fused ∈ Terminal.operators
  slash_not_mem : '/' ∉ longer.toList
  goesOn_eq_false : ∀ c, fused.goesOn c = false

/-- Every terminal that fuses with itself does so in the way that the reader needs. -/
theorem exists_doubles {terminal fused : Terminal} (h : terminal.doubled? = some fused) :
    ∃ spelling longer, Doubles terminal fused spelling longer := by
  unfold Terminal.doubled? at h
  split at h
  · obtain rfl := Option.some.inj h
    exact ⟨"<", "<<", rfl, rfl, rfl, rfl, by decide, by decide, fun c => rfl⟩
  · obtain rfl := Option.some.inj h
    exact ⟨">", ">>", rfl, rfl, rfl, rfl, by decide, by decide, fun c => rfl⟩
  · obtain rfl := Option.some.inj h
    exact ⟨"&", "&&", rfl, rfl, rfl, rfl, by decide, by decide, fun c => rfl⟩
  · cases h

namespace WrittenToken

/-- A token of a type stops before the next one unless both are words or the two make one
operator. -/
theorem stopsBefore_next {token next : WrittenToken} (htoken : token.terminal ∈ typeTerminals)
    (hnext : next.terminal ∈ typeTerminals)
    (hwords : (token.terminal.isWord && next.terminal.isWord) = false)
    (hfuse : token.terminal.fuse? next.terminal = none) :
    ∀ c ∈ next.text.head?, token.terminal.stopsBefore c := by
  intro c hc
  cases hword : next.terminal.isWord with
  | true =>
    rw [hword, Bool.and_true] at hwords
    rw [Terminal.stopsBefore, hwords, goesOn_of_startsWord (next.startsWord_of_isWord hword c hc)]
    rfl
  | false =>
    have hspelled : ∀ terminal ∈ typeTerminals, terminal.isWord = false →
        terminal.spelling?.isSome := by decide +kernel
    obtain ⟨spelling, hspelling⟩ := Option.isSome_iff_exists.mp (hspelled _ hnext hword)
    rw [next.text_eq_of_spelling? hspelling] at hc
    have hstops := stopsBefore_sign _ htoken _ hnext hword hfuse spelling hspelling
    rw [Option.mem_def.mp hc] at hstops
    exact hstops

end WrittenToken

/-! ## What is read -/

section Reading

variable {tokens : List WrittenToken} {rest : List Char} {shapes : List (Terminal × List Char)}

/-- No space follows a token that is no word. -/
theorem compact_cons {token : WrittenToken} (h : token.terminal.isWord = false)
    (tokens : List WrittenToken) : compact (token :: tokens) = token.text ++ compact tokens := by
  cases tokens with
  | nil => simp [compact]
  | cons next tokens => simp [compact, gap, h]

/-- The first token begins the text. -/
theorem head?_compact (token : WrittenToken) (tokens : List WrittenToken) (rest : List Char) :
    (compact (token :: tokens) ++ rest).head? = token.text.head? := by
  cases tokens with
  | nil => rw [compact, List.head?_append_of_ne_nil _ token.text_ne_nil]
  | cons next tokens =>
    rw [compact, List.append_assoc, List.append_assoc,
      List.head?_append_of_ne_nil _ token.text_ne_nil]

/-- The last token of a type is read before a closing parenthesis. -/
theorem readsAs_last {token : WrittenToken} (htoken : token.terminal ∈ typeTerminals)
    (hparen : rest.head? = some ')') (hrest : ReadsAs rest shapes) :
    ReadsAs (token.text ++ rest) (token.shape :: shapes) := by
  apply token.readsAs_of_stopsBefore (isPlain_of_mem_typeTerminals _ htoken) _ hrest
  intro c hc
  obtain rfl := Option.some.inj (hparen.symm.trans hc)
  exact stopsBefore_paren _ htoken

/-- Between spaces the tokens of a type are read as they are. -/
theorem readsAs_spaced (htypes : ∀ token ∈ tokens, token.terminal ∈ typeTerminals)
    (hparen : rest.head? = some ')') (hrest : ReadsAs rest shapes) :
    ReadsAs (spaced tokens ++ rest) (tokens.map WrittenToken.shape ++ shapes) := by
  induction tokens with
  | nil => exact hrest
  | cons token tokens ih =>
    obtain ⟨htoken, htokens⟩ := List.forall_mem_cons.mp htypes
    cases tokens with
    | nil =>
      rw [spaced, List.map_singleton, List.intercalate_singleton]
      exact readsAs_last htoken hparen hrest
    | cons next tokens =>
      have hlater := (ih htokens).blank (show Pattern.isBlank ' ' from rfl)
      have hall := token.readsAs_of_startsBlank (by simp [StartsBlank, Pattern.isBlank]) hlater
      rw [spaced, List.map_cons, List.map_cons, List.intercalate_cons_cons, ← List.map_cons,
        ← spaced, List.append_assoc, List.append_assoc, List.singleton_append]
      exact hall

/-- Without spaces the tokens of a type are read as the longest match makes them. -/
theorem readsAs_compact (htypes : ∀ token ∈ tokens, token.terminal ∈ typeTerminals)
    (hparen : rest.head? = some ')') (hrest : ReadsAs rest shapes) :
    ReadsAs (compact tokens ++ rest) (munch tokens ++ shapes) := by
  fun_induction munch tokens with
  | case1 => exact hrest
  | case2 token => exact readsAs_last (htypes token List.mem_cons_self) hparen hrest
  | case3 token next tokens fused hfuse ih =>
    obtain ⟨-, -, htokens⟩ := by simpa only [List.forall_mem_cons] using htypes
    obtain ⟨hsame, hdoubled⟩ := fuse?_eq_some_iff.mp hfuse
    obtain ⟨spelling, longer, hdoubles⟩ := exists_doubles hdoubled
    have hnextSpelling : next.terminal.spelling? = some spelling := hsame ▸ hdoubles.spelling?_eq
    have hnextWord : next.terminal.isWord = false := hsame ▸ hdoubles.isWord_eq_false
    have hboth : token.text ++ next.text = longer.toList := by
      rw [token.text_eq_of_spelling? hdoubles.spelling?_eq,
        next.text_eq_of_spelling? hnextSpelling, hdoubles.toList_longer]
    have hfits : Pattern.first? (longer.toList ++ (compact tokens ++ rest)) =
        some (.operator fused, longer.toList.length) :=
      Pattern.first?_operator_append hdoubles.mem_operators hdoubles.spelling?_fused
        hdoubles.slash_not_mem (fun c _ => hdoubles.goesOn_eq_false c)
    rw [compact_cons hdoubles.isWord_eq_false, compact_cons hnextWord, ← List.append_assoc, hboth,
      List.append_assoc, List.cons_append]
    exact (ih htokens).token hfits rfl
  | case4 token next tokens hfuse ih =>
    obtain ⟨htoken, htokens⟩ := List.forall_mem_cons.mp htypes
    obtain ⟨hnext, -⟩ := List.forall_mem_cons.mp htokens
    have hlater := ih htokens
    rw [compact, List.append_assoc, List.append_assoc, List.cons_append]
    cases hwords : token.terminal.isWord && next.terminal.isWord with
    | true =>
      rw [gap, if_pos hwords, List.singleton_append]
      apply token.readsAs_of_startsBlank (by simp [StartsBlank, Pattern.isBlank])
      exact hlater.blank (show Pattern.isBlank ' ' from rfl)
    | false =>
      rw [gap, hwords, if_neg Bool.false_ne_true, List.nil_append]
      apply token.readsAs_of_stopsBefore (isPlain_of_mem_typeTerminals _ htoken) _ hlater
      rw [head?_compact]
      exact WrittenToken.stopsBefore_next htoken hnext hwords hfuse

end Reading

/-! ## What comes out -/

/-- Where no two terminals in a row make one operator, the tokens come out as they are. -/
theorem munch_eq_map_shape {tokens : List WrittenToken}
    (h : (tokens.map (·.terminal)).IsChain fun terminal next => terminal.fuse? next = none) :
    munch tokens = tokens.map WrittenToken.shape := by
  fun_induction munch tokens with
  | case1 => rfl
  | case2 token => rfl
  | case3 token next tokens fused hfuse =>
    have hnone := List.IsChain.rel h
    rw [hfuse] at hnone
    cases hnone
  | case4 token next tokens hfuse ih =>
    rw [List.map_cons, ih (List.IsChain.tail h)]

/-- Where a terminal stands twice in a row of which one operator is made, that operator comes
out. -/
theorem mem_munch_of_pair {tokens : List WrittenToken} {terminal fused : Terminal}
    (hdoubled : terminal.doubled? = some fused)
    (h : [terminal, terminal] <:+: tokens.map (·.terminal)) :
    fused ∈ (munch tokens).map Prod.fst := by
  fun_induction munch tokens with
  | case1 => simp at h
  | case2 token => simpa using h.length_le
  | case3 token next tokens made hfuse ih =>
    obtain ⟨hsame, hmade⟩ := fuse?_eq_some_iff.mp hfuse
    rw [List.map_cons, List.mem_cons]
    -- the pair may begin at either of the two tokens, or later
    rw [List.map_cons, List.map_cons, List.infix_cons_iff, List.infix_cons_iff] at h
    rcases h with hfirst | hsecond | hlater
    · rw [(List.cons_prefix_cons.mp hfirst).1, hmade] at hdoubled
      exact .inl (Option.some.inj hdoubled).symm
    · rw [(List.cons_prefix_cons.mp hsecond).1, ← hsame, hmade] at hdoubled
      exact .inl (Option.some.inj hdoubled).symm
    · exact .inr (ih hlater)
  | case4 token next tokens hfuse ih =>
    rw [List.map_cons, List.infix_cons_iff] at h
    rcases h with hfirst | hlater
    · rw [List.map_cons, List.cons_prefix_cons, List.cons_prefix_cons] at hfirst
      obtain ⟨hterminal, hnext, -⟩ := hfirst
      rw [← hterminal, ← hnext, fuse?_eq_some_iff.mpr ⟨rfl, hdoubled⟩] at hfuse
      cases hfuse
    · exact List.mem_cons_of_mem _ (ih hlater)

/-- What comes out of a type opens no block, gives no value and ends nothing. -/
theorem not_guard_of_mem_munch {tokens : List WrittenToken}
    (htypes : ∀ token ∈ tokens, token.terminal ∈ typeTerminals) :
    ∀ terminal ∈ (munch tokens).map Prod.fst,
      terminal ∉ [Terminal.leftBrace, .equal, .semicolon] := by
  have hplain : ∀ terminal ∈ typeTerminals,
      terminal ∉ [Terminal.leftBrace, .equal, .semicolon] := by decide
  have hdoubled : ∀ terminal ∈ Terminal.all, ∀ fused ∈ terminal.doubled?,
      fused ∉ [Terminal.leftBrace, .equal, .semicolon] := by decide
  fun_induction munch tokens with
  | case1 => exact List.forall_mem_nil _
  | case2 token =>
    rw [List.map_singleton, List.forall_mem_singleton]
    exact hplain _ (htypes token List.mem_cons_self)
  | case3 token next tokens fused hfuse ih =>
    obtain ⟨-, -, htokens⟩ := by simpa only [List.forall_mem_cons] using htypes
    rw [List.map_cons, List.forall_mem_cons]
    obtain ⟨-, hmade⟩ := fuse?_eq_some_iff.mp hfuse
    exact ⟨hdoubled _ token.terminal.mem_all fused hmade, ih htokens⟩
  | case4 token next tokens hfuse ih =>
    obtain ⟨htoken, htokens⟩ := List.forall_mem_cons.mp htypes
    rw [List.map_cons, List.forall_mem_cons]
    exact ⟨hplain _ htoken, ih htokens⟩

end CrateAnalysis
