import CrateAnalysis.Proofs.Json.Spelling

/-!
# Documents with one member

A document that is an object with one member, whose value is a text, can have any blanks between its
parts, and name and text can be written in any form. It is read as that object, whatever form is
chosen.
-/

set_option autoImplicit false

namespace CrateAnalysis

namespace Json

/-- White space between the parts of a document. -/
def Blanks (cs : List Char) : Prop := ∀ c ∈ cs, c ∈ [' ', '\t', '\n', '\r']

instance (cs : List Char) : Decidable (Blanks cs) :=
  List.decidableBAll (· ∈ [' ', '\t', '\n', '\r']) cs

/-- The characters are an object with one member of this name, whose value is this text. -/
inductive OneMember (name text : String) : List Char → Prop
  | mk {beforeBrace beforeName nameForm afterName beforeText textForm afterText afterBrace :
        List Char} :
      Blanks beforeBrace → Blanks beforeName → TextForm nameForm name.toList →
      Blanks afterName → Blanks beforeText → TextForm textForm text.toList →
      Blanks afterText → Blanks afterBrace →
      OneMember name text
        (beforeBrace ++ '\x7b' :: (beforeName ++ '"' :: (nameForm ++ '"' :: (afterName ++ ':' ::
          (beforeText ++ '"' :: (textForm ++ '"' :: (afterText ++ '\x7d' :: afterBrace)))))))

/-- The reader takes every character of white space for a blank. -/
theorem isBlank_of_blanks {cs : List Char} (h : Blanks cs) : ∀ c ∈ cs, isBlank c := by
  intro c hc
  have hlisted := h c hc
  simp only [List.mem_cons, List.not_mem_nil, or_false] at hlisted
  simpa [isBlank, or_assoc] using hlisted

/-- White space is skipped to its end. -/
theorem skipBlanks_blanks {cs : List Char} (h : Blanks cs) : skipBlanks cs = [] :=
  List.dropWhile_eq_nil_iff.mpr (isBlank_of_blanks h)

/-- White space is skipped up to the first character that is none. -/
theorem skipBlanks_append {cs : List Char} (h : Blanks cs) {c : Char} (hc : isBlank c = false)
    (rest : List Char) : skipBlanks (cs ++ c :: rest) = c :: rest := by
  rw [skipBlanks, List.dropWhile_append_of_pos (isBlank_of_blanks h), List.dropWhile_cons_of_neg]
  rw [hc]
  decide

/-- Whatever is written for a text between quotes, it is read back as this text. -/
theorem value_text {form : List Char} {text : String} (h : TextForm form text.toList) (depth : Nat)
    (rest : List Char) :
    value (depth + 1) ('"' :: (form ++ '"' :: rest)) = .ok (.str text, rest) := by
  rw [value, stringAfterQuote_textForm h, String.ofList_toList]
  rfl

/-- From the quote of its name on, an object with one member is read up to its brace. -/
theorem members_one {name text : String} {nameForm afterName beforeText textForm afterText :
    List Char} (hname : TextForm nameForm name.toList) (hafterName : Blanks afterName)
    (hbeforeText : Blanks beforeText) (htext : TextForm textForm text.toList)
    (hafterText : Blanks afterText) (depth : Nat) (rest : List Char) :
    members (depth + 2) ('"' :: (nameForm ++ '"' :: (afterName ++ ':' :: (beforeText ++ '"' ::
      (textForm ++ '"' :: (afterText ++ '\x7d' :: rest)))))) =
      .ok ([(name, .str text)], rest) := by
  rw [members, stringAfterQuote_textForm hname, String.ofList_toList]
  simp only [bind, Except.bind]
  rw [skipBlanks_append hafterName (by decide)]
  simp only
  rw [skipBlanks_append hbeforeText (by decide), value_text htext]
  simp only
  rw [skipBlanks_append hafterText (by decide)]
  rfl

/-- An object that has members is read as they are. -/
theorem value_object {depth : Nat} {cs tail after : List Char} {read : List (String × Json)}
    (hname : skipBlanks cs = '"' :: tail)
    (hmembers : members depth ('"' :: tail) = .ok (read, after)) :
    value (depth + 1) ('\x7b' :: cs) = .ok (.obj read, after) := by
  rw [value, hname]
  simp only [bind, Except.bind]
  split
  next heq => cases heq
  next => rw [hmembers]

/-- A document with one member is read as the object with this member. -/
theorem parse_oneMember {name text : String} {document : List Char}
    (h : OneMember name text document) : parse document = .ok (.obj [(name, .str text)]) := by
  cases h with
  | @mk beforeBrace beforeName nameForm afterName beforeText textForm afterText afterBrace
      hbeforeBrace hbeforeName hname hafterName hbeforeText htext hafterText hafterBrace =>
    obtain ⟨tail, htail⟩ : ∃ tail, tail = nameForm ++ '"' :: (afterName ++ ':' :: (beforeText ++
      '"' :: (textForm ++ '"' :: (afterText ++ '\x7d' :: afterBrace)))) := ⟨_, rfl⟩
    have hmembers : ∀ depth, members (depth + 2) ('"' :: tail) =
        .ok ([(name, .str text)], afterBrace) := by
      intro depth
      rw [htail]
      exact members_one hname hafterName hbeforeText htext hafterText depth afterBrace
    rw [← htail]
    -- the length of the text is more depth than is needed
    obtain ⟨depth, hdepth⟩ : ∃ depth,
        (beforeBrace ++ '\x7b' :: (beforeName ++ '"' :: tail)).length = depth + 2 := by
      refine ⟨beforeBrace.length + beforeName.length + tail.length, ?_⟩
      simp only [List.length_append, List.length_cons]
      omega
    have hvalue := value_object (skipBlanks_append hbeforeName (by decide) tail) (hmembers depth)
    rw [parse, skipBlanks_append hbeforeBrace (by decide), hdepth, hvalue]
    simp only [bind, Except.bind]
    rw [skipBlanks_blanks hafterBrace]
    rfl

end Json

end CrateAnalysis
