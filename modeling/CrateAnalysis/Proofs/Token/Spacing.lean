import CrateAnalysis.Proofs.Token.Leading
import CrateAnalysis.Proofs.Token.Separator

/-!
# Laying tokens out anew

The texts of some tokens can be written one after another with separators around them, as a
`Spacing` says. Every lexeme stands alone: its text is read as that lexeme wherever nothing or a
blank follows. So the lexer finds the same lexemes in the new text as in the text that they were
taken from, at other places.
-/

set_option autoImplicit false

namespace CrateAnalysis

namespace Lexeme

/-- What a lexeme is, wherever it stands. -/
def shape (lexeme : Lexeme) : Terminal × List Char := (lexeme.terminal, lexeme.text)

/-- The text of a lexeme is read as that lexeme if nothing or a blank follows it. -/
def StandsAlone (lexeme : Lexeme) : Prop :=
  ∃ pattern : Pattern, pattern.terminal? lexeme.text = some lexeme.terminal ∧
    ∀ rest, StartsBlank rest →
      Pattern.first? (lexeme.text ++ rest) = some (pattern, lexeme.text.length)

end Lexeme

/-! ## Lexemes stand alone -/

/-- Every lexeme of a stretch stands alone. -/
theorem standsAlone_of_mem_lexStretch {base : Position} {cursor : Cursor} {cs : List Char} :
    ∀ lexeme ∈ (lexStretch base cursor cs).1, lexeme.StandsAlone := by
  fun_induction lexStretch base cursor cs with
  | case1 => simp
  | case2 cursor c tail pattern n hfits text later found heq terminal hterminal ih =>
    rw [heq] at ih
    rw [List.forall_mem_cons]
    refine ⟨⟨pattern, hterminal, fun rest hrest => ?_⟩, ih⟩
    obtain ⟨hlength, hwhole⟩ : text.length = n + 1 ∧ text ++ tail.drop n = c :: tail :=
      cons_take_of_first? hfits
    apply Pattern.first?_append hrest
    · rw [hterminal]; rfl
    · rw [hwhole, hlength]
      exact hfits
  | case3 cursor c tail pattern n hfits text later found heq hlayout ih =>
    rw [heq] at ih
    exact ih
  | case4 => simp

/-- Every lexeme of a text stands alone. -/
theorem standsAlone_of_mem_lexAll {base : Position} {cs : List Char} :
    ∀ lexeme ∈ (lexAll base cs).1, lexeme.StandsAlone := by
  fun_induction lexAll base cs with
  | case1 base cs lexemes h =>
    intro lexeme hmem
    apply @standsAlone_of_mem_lexStretch base .start cs
    rwa [h]
  | case2 base cs lexemes stray rest h later strays hlater ih =>
    rw [hlater] at ih
    intro lexeme hmem
    rcases List.mem_append.mp hmem with hmem | hmem
    · apply @standsAlone_of_mem_lexStretch base .start cs
      rwa [h]
    · exact ih lexeme hmem

/-- The text of a lexeme that stands alone is the spelling of its terminal, if that has one. -/
theorem Lexeme.StandsAlone.text_eq {lexeme : Lexeme} (h : lexeme.StandsAlone) {spelling : String}
    (hspelling : lexeme.terminal.spelling? = some spelling) : lexeme.text = spelling.toList := by
  obtain ⟨pattern, hterminal, hfits⟩ := h
  have hlength := (Pattern.length?_of_first? (hfits [] startsBlank_nil)).2
  generalize lexeme.terminal = terminal at hterminal hspelling
  cases pattern with
  | word =>
    obtain rfl := Option.some.inj hterminal
    exact Terminal.eq_spelling_of_ofWord hspelling
  | operator _ =>
    obtain rfl := Option.some.inj hterminal
    have htext := Pattern.eq_spelling_of_spellingLength? hlength
    rw [hspelling] at htext
    exact (Option.some.inj htext).symm
  | float | integer | string | character =>
    obtain rfl := Option.some.inj hterminal
    cases hspelling
  | blockComment | blank | lineComment => cases hterminal

/-! ## Spacings -/

/-- The separators around some texts: one before them all, and one after each. The first may be
anything, for nothing stands before it. The others begin with a blank, and only the last of them
may be empty. -/
structure Spacing where
  opening : List Char
  gaps : List (List Char)
  separator_opening : Separator opening
  separator_of_mem : ∀ gap ∈ gaps, Separator gap
  startsBlank_of_mem : ∀ gap ∈ gaps, StartsBlank gap
  ne_nil_of_mem : ∀ gap ∈ gaps.dropLast, gap ≠ []

/-- Texts with gaps after them. -/
def withGaps (texts gaps : List (List Char)) : List Char :=
  (List.zipWith (· ++ ·) texts gaps).flatten

/-- Writes some texts one after another with the separators of a spacing. -/
def Spacing.lay (spacing : Spacing) (texts : List String) : String :=
  String.ofList (spacing.opening ++ withGaps (texts.map String.toList) spacing.gaps)

/-- A gap and what follows it begin with a blank, or there is nothing. -/
theorem StartsBlank.append {gap rest : List Char} (hgap : StartsBlank gap)
    (hrest : gap = [] → rest = []) : StartsBlank (gap ++ rest) := by
  cases gap with
  | nil => rwa [hrest rfl]
  | cons c gap => exact hgap

/-- Lexemes that stand alone are found again between gaps. -/
theorem lexStretch_withGaps {lexemes : List Lexeme} {gaps : List (List Char)}
    (hlexemes : ∀ lexeme ∈ lexemes, lexeme.StandsAlone) (hlength : gaps.length = lexemes.length)
    (hseparator : ∀ gap ∈ gaps, Separator gap) (hblank : ∀ gap ∈ gaps, StartsBlank gap)
    (hne : ∀ gap ∈ gaps.dropLast, gap ≠ []) (base : Position) (cursor : Cursor) :
    ∃ found, lexStretch base cursor (withGaps (lexemes.map Lexeme.text) gaps) = (found, none) ∧
      found.map Lexeme.shape = lexemes.map Lexeme.shape := by
  induction lexemes generalizing gaps cursor with
  | nil =>
    refine ⟨[], ?_, rfl⟩
    rw [List.map_nil, withGaps, List.zipWith_nil_left, List.flatten_nil, lexStretch]
  | cons lexeme lexemes ih =>
    cases gaps with
    | nil => cases hlength
    | cons gap gaps =>
      rw [List.forall_mem_cons] at hlexemes hseparator hblank
      obtain ⟨⟨pattern, hterminal, hfits⟩, hlexemes⟩ := hlexemes
      rw [List.length_cons, List.length_cons, Nat.add_right_cancel_iff] at hlength
      -- only the last gap may be empty, and nothing follows it
      have hrest : gap = [] → withGaps (lexemes.map Lexeme.text) gaps = [] := by
        intro hgap
        cases gaps with
        | nil => rw [withGaps, List.zipWith_nil_right, List.flatten_nil]
        | cons next gaps => exact absurd hgap (hne gap (.head _))
      have hlater : ∀ gap ∈ gaps.dropLast, gap ≠ [] := by
        intro other hmem
        cases gaps with
        | nil => cases hmem
        | cons next gaps => exact hne other (.tail _ hmem)
      obtain ⟨found, hfound, hshape⟩ := ih hlexemes hlength hseparator.2 hblank.2 hlater
        ((cursor.after lexeme.text).after gap)
      have hstep := lexStretch_append base cursor (hfits _ (hblank.1.append hrest))
      rw [hterminal, lexStretch_separator hseparator.1, hfound] at hstep
      refine ⟨⟨lexeme.terminal, lexeme.text, cursor.absolute base⟩ :: found, ?_, ?_⟩
      · rw [withGaps, List.map_cons, List.zipWith_cons_cons, List.flatten_cons, List.append_assoc]
        exact hstep
      · rw [List.map_cons, List.map_cons, hshape]
        rfl

/-- A text in which the lexemes of another are laid out anew has the same lexemes and no
stray. -/
theorem Spacing.lexStretch_lay (code : String) (spacing : Spacing)
    (hgaps : spacing.gaps.length = (tokenize code).tokens.dropLast.length) :
    ∃ lexemes, lexStretch .start .start
        (spacing.lay ((tokenize code).tokens.dropLast.map Token.text)).toList = (lexemes, none) ∧
      lexemes.map Lexeme.shape = (lexAll .start code.toList).1.map Lexeme.shape := by
  have htokens : (tokenize code).tokens.dropLast =
      (lexAll .start code.toList).1.map Lexeme.token := by
    rw [tokenize, List.dropLast_concat]
  have htexts : ((tokenize code).tokens.dropLast.map Token.text).map String.toList =
      (lexAll .start code.toList).1.map Lexeme.text := by
    rw [htokens, List.map_map, List.map_map]
    apply List.map_congr_left
    intro lexeme _
    exact String.toList_ofList
  rw [lay, String.toList_ofList, htexts, lexStretch_separator spacing.separator_opening]
  apply lexStretch_withGaps standsAlone_of_mem_lexAll _ spacing.separator_of_mem
    spacing.startsBlank_of_mem spacing.ne_nil_of_mem
  rw [hgaps, htokens, List.length_map]

end CrateAnalysis
