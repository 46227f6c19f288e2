import CrateAnalysis.Json.Print
import CrateAnalysis.Proofs.Json.Document
import CrateAnalysis.Proofs.Text.Parts
import Mathlib.Data.List.TakeDrop

/-!
# Reading what was printed

A value that is printed with indentation is read back as itself. What is printed for a text is one
of the ways to write it; a whole number ends where no digit, point or exponent follows; and the
items of a list, like the members of an object, are read one after another up to the closing
bracket. Every lemma on a part leaves free what follows the part.
-/

set_option autoImplicit false

namespace CrateAnalysis

namespace Json

/-- A value in which all numbers are whole. -/
inductive Whole : Json → Prop
  | null : Whole null
  | bool (b : Bool) : Whole (bool b)
  | int (n : Int) : Whole (int n)
  | str (s : String) : Whole (str s)
  | arr {items : List Json} : (∀ v ∈ items, Whole v) → Whole (arr items)
  | obj {members : List (String × Json)} :
      (∀ member ∈ members, Whole member.2) → Whole (obj members)

attribute [simp] Whole.null Whole.bool Whole.int Whole.str

/-- The numbers of a list are whole if those of its items are. -/
@[simp]
theorem whole_arr_iff {items : List Json} : Whole (arr items) ↔ ∀ v ∈ items, Whole v :=
  ⟨fun | .arr h => h, .arr⟩

/-- The numbers of an object are whole if those of its members are. -/
@[simp]
theorem whole_obj_iff {members : List (String × Json)} :
    Whole (obj members) ↔ ∀ member ∈ members, Whole member.2 :=
  ⟨fun | .obj h => h, .obj⟩

/-- The characters that a number can go on with. -/
def isNumberMark (c : Char) : Bool := c.isDigit || c = '.' || c = 'e' || c = 'E'

/-- Whether a number that stands before this text ends there. -/
def endsNumber (rest : List Char) : Bool := !rest.head?.any isNumberMark

/-! ## Texts -/

/-- The digit that is printed for a number has this number as its value. -/
theorem hexDigit_hexDigit {n : Nat} (h : n < 16) : HexDigit (hexDigit n) n := by
  have hdigits : ∀ i : Fin 16, "0123456789abcdef".toList[i.val]? = some (hexDigit i.val) := by
    decide
  exact .inl (hdigits ⟨n, h⟩)

/-- A character is printed in one of the ways to write it. -/
theorem charForm_escapeChar (c : Char) : CharForm (escapeChar c) c := by
  unfold escapeChar
  split
  · exact .short (by simp [shortEscapes])
  · exact .short (by simp [shortEscapes])
  · exact .short (by simp [shortEscapes])
  · exact .short (by simp [shortEscapes])
  · exact .short (by simp [shortEscapes])
  · exact .short (by simp [shortEscapes])
  · exact .short (by simp [shortEscapes])
  next hquote hbackslash _ _ _ _ _ =>
    by_cases hcontrol : c.toNat < 0x20
    · rw [if_pos hcontrol]
      have hunit := HexUnit.mk (hexDigit_hexDigit (n := 0) (by omega))
        (hexDigit_hexDigit (n := 0) (by omega)) (hexDigit_hexDigit (n := c.toNat / 16) (by omega))
        (hexDigit_hexDigit (n := c.toNat % 16) (by omega))
      have hvalue : ((0 * 16 + 0) * 16 + c.toNat / 16) * 16 + c.toNat % 16 = c.toNat := by omega
      rw [hvalue] at hunit
      exact .unit hunit
    · rw [if_neg hcontrol]
      exact .plain hquote hbackslash (by omega)

/-- What is printed for the characters of a text is a form of this text. -/
theorem textForm_escapeChars (cs : List Char) : TextForm (cs.flatMap escapeChar) cs := by
  induction cs with
  | nil => exact .nil
  | cons c cs ih =>
    rw [List.flatMap_cons]
    exact .cons (charForm_escapeChar c) ih

/-- A printed text stands between quotes, whatever follows. -/
theorem quote_append (s : String) (rest : List Char) :
    quote s ++ rest = '"' :: (s.toList.flatMap escapeChar ++ '"' :: rest) := by
  simp [quote]

/-- What is printed for a text is read up to its closing quote. -/
theorem stringAfterQuote_escapeChars (s : String) (rest : List Char) :
    stringAfterQuote (s.toList.flatMap escapeChar ++ '"' :: rest) = .ok (s, rest) := by
  rw [stringAfterQuote_textForm (textForm_escapeChars s.toList), String.ofList_toList]

/-! ## Numbers -/

/-- A number is printed in digits. -/
theorem isDigit_of_mem_toDigits {n : Nat} : ∀ c ∈ Nat.toDigits 10 n, c.isDigit := fun _ h =>
  Nat.isDigit_of_mem_toDigits (by omega) (by omega) h

/-- Only zero begins with a zero. -/
theorem head?_toDigits_ne {n : Nat} (h : n ≠ 0) : (Nat.toDigits 10 n).head? ≠ some '0' := by
  induction n using Nat.strongRecOn with
  | ind n ih =>
    by_cases hsmall : n < 10
    · have hdigits : ∀ i : Fin 10, i.val ≠ 0 → i.val.digitChar ≠ '0' := by decide
      rw [Nat.toDigits_of_lt_base hsmall, List.head?_cons]
      intro heq
      exact hdigits ⟨n, hsmall⟩ h (Option.some.inj heq)
    · have hrec := ih (n / 10) (by omega) (by omega)
      -- the last digit is split off, so the first one is that of the digits before it
      rw [Nat.toDigits_of_base_le (by omega) (by omega), List.head?_append]
      cases hdigits : Nat.toDigits 10 (n / 10) with
      | nil => exact absurd hdigits Nat.toDigits_ne_nil
      | cons d ds => rwa [hdigits] at hrec

/-- The digits of a number have this number as their value. -/
theorem digitsValue_toDigits (n : Nat) : digitsValue (Nat.toDigits 10 n) = n := by
  have hvalue : digitsValue (Nat.toDigits 10 n) = Nat.ofDigitChars 10 (Nat.toDigits 10 n) 0 := by
    simp only [digitsValue, Nat.ofDigitChars, Nat.mul_comm]
  rw [hvalue, Nat.ofDigitChars_ten_toDigits]

/-- Digits are read up to what follows the number. -/
theorem wholePart?_toDigits (n : Nat) {rest : List Char} (hrest : endsNumber rest) :
    wholePart? (Nat.toDigits 10 n ++ rest) = some (Nat.toDigits 10 n, rest) := by
  by_cases hzero : n = 0
  · subst hzero
    rfl
  · have hdigit : rest.head?.any Char.isDigit = false := by
      cases rest <;> simp_all [endsNumber, isNumberMark]
    obtain ⟨htake, hdrop⟩ :=
      Text.takeWhile_dropWhile_append (isDigit_of_mem_toDigits (n := n)) hdigit
    have hlead := head?_toDigits_ne hzero
    cases hdigits : Nat.toDigits 10 n with
    | nil => exact absurd hdigits Nat.toDigits_ne_nil
    | cons d ds =>
      have hd : d.isDigit := isDigit_of_mem_toDigits d (hdigits ▸ List.mem_cons_self)
      rw [hdigits] at htake hdrop hlead
      rw [List.cons_append, wholePart?, if_pos hd, List.span_eq_takeWhile_dropWhile,
        ← List.cons_append, htake, hdrop]
      rintro rfl
      exact hlead rfl

/-- A number that ends here has no fraction. -/
theorem fractionPart_of_endsNumber {rest : List Char} (h : endsNumber rest) :
    fractionPart rest = ([], rest) := by
  cases rest with
  | nil => rfl
  | cons c rest =>
    unfold fractionPart
    split
    next heq => simp_all [endsNumber, isNumberMark]
    next => rfl

/-- A number that ends here has no exponent. -/
theorem exponentPart_of_endsNumber {rest : List Char} (h : endsNumber rest) :
    exponentPart rest = ([], rest) := by
  cases rest with
  | nil => rfl
  | cons c rest =>
    have hmark : (decide (c = 'e') || decide (c = 'E')) = false := by
      simp_all [endsNumber, isNumberMark]
    simp [exponentPart, hmark]

/-- A number that is not negative is printed as its digits. -/
theorem toList_toString_natCast (n : Nat) : (toString (n : Int)).toList = Nat.toDigits 10 n := by
  simp [Int.toString_eq_repr, Int.repr, Nat.repr]

/-- A negative number is printed as a sign and the digits of its amount. -/
theorem toList_toString_negSucc (n : Nat) :
    (toString (Int.negSucc n)).toList = '-' :: Nat.toDigits 10 (n + 1) := by
  simp [Int.toString_eq_repr, Int.repr, Nat.repr]

/-- A number is printed as digits, after a sign or without. -/
theorem exists_digit_toString (n : Int) :
    ∃ d ds, d.isDigit ∧ ((toString n).toList = d :: ds ∨ (toString n).toList = '-' :: d :: ds) := by
  have hdigits : ∀ m, ∃ d ds, d.isDigit ∧ Nat.toDigits 10 m = d :: ds := by
    intro m
    obtain ⟨d, ds, h⟩ := List.exists_cons_of_ne_nil (Nat.toDigits_ne_nil (b := 10) (n := m))
    exact ⟨d, ds, isDigit_of_mem_toDigits d (h ▸ List.mem_cons_self), h⟩
  cases n with
  | ofNat n =>
    obtain ⟨d, ds, hd, h⟩ := hdigits n
    exact ⟨d, ds, hd, .inl ((toList_toString_natCast n).trans h)⟩
  | negSucc n =>
    obtain ⟨d, ds, hd, h⟩ := hdigits (n + 1)
    exact ⟨d, ds, hd, .inr ((toList_toString_negSucc n).trans (h ▸ rfl))⟩

/-- A whole number is read up to what follows it. -/
theorem number_toString (n : Int) {rest : List Char} (hrest : endsNumber rest) :
    number ((toString n).toList ++ rest) = .ok (.int n, rest) := by
  cases n with
  | ofNat n =>
    -- the reader looks for a sign first
    have hunsigned : ∀ ds, Nat.toDigits 10 n ++ rest ≠ '-' :: ds := by
      intro ds heq
      have hwhole := wholePart?_toDigits n hrest
      rw [heq] at hwhole
      cases hwhole
    rw [Int.ofNat_eq_natCast, toList_toString_natCast, number]
    · simp [wholePart?_toDigits _ hrest, fractionPart_of_endsNumber hrest,
        exponentPart_of_endsNumber hrest, digitsValue_toDigits]
    · exact hunsigned
  | negSucc n =>
    rw [toList_toString_negSucc, List.cons_append]
    simp [number, wholePart?_toDigits _ hrest, fractionPart_of_endsNumber hrest,
      exponentPart_of_endsNumber hrest, digitsValue_toDigits, Int.negSucc_eq]

/-- No word can be read where one of the first two characters is a digit. -/
theorem afterWord?_eq_none {word : String × Json} (hword : word ∈ words) {cs : List Char}
    (hdigit : (cs.take 2).any Char.isDigit) : afterWord? word.1 cs = none := by
  have hwords : ∀ pair ∈ words, 2 ≤ pair.1.toList.length ∧
      (pair.1.toList.take 2).any Char.isDigit = false := by decide
  obtain ⟨hlength, hletters⟩ := hwords word hword
  refine if_neg ?_
  intro hprefix
  obtain ⟨tail, rfl⟩ := List.isPrefixOf_iff_prefix.mp hprefix
  rw [List.take_append_of_le_length hlength, hletters] at hdigit
  cases hdigit

/-- A whole number is read back where what follows goes on no number. -/
theorem wordOrNumber_toString (n : Int) {rest : List Char} (hrest : endsNumber rest) :
    wordOrNumber ((toString n).toList ++ rest) = .ok (.int n, rest) := by
  have hdigit : (((toString n).toList ++ rest).take 2).any Char.isDigit := by
    obtain ⟨d, ds, hd, h | h⟩ := exists_digit_toString n
    · rw [h]
      simp [hd]
    · rw [h]
      simp [hd]
  rw [wordOrNumber, List.findSome?_eq_none_iff.mpr]
  · exact number_toString n hrest
  · rintro ⟨name, v⟩ hword
    exact congrArg (Option.map (v, ·)) (afterWord?_eq_none hword hdigit)

/-! ## Items and members -/

/-- Nothing is skipped before a character that is no blank. -/
theorem skipBlanks_cons {c : Char} (hc : isBlank c = false) (cs : List Char) :
    skipBlanks (c :: cs) = c :: cs := by
  simp [skipBlanks, hc]

/-- A space is skipped. -/
theorem skipBlanks_blank (cs : List Char) : skipBlanks (' ' :: cs) = skipBlanks cs := by
  rw [skipBlanks, List.dropWhile_cons_of_pos (by decide), ← skipBlanks]

section Steps

variable {depth : Nat} {cs after tail rest : List Char} {v : Json}

/-- A list that has items is read as they are. -/
theorem value_list {c : Char} {read : List Json} (hfirst : skipBlanks cs = c :: tail)
    (hc : c ≠ ']') (hitems : items depth (c :: tail) = .ok (read, after)) :
    value (depth + 1) ('[' :: cs) = .ok (.arr read, after) := by
  rw [value, hfirst]
  simp only [bind, Except.bind]
  split
  next heq => exact absurd (List.cons.inj heq).1 hc
  next => rw [hitems]

/-- The last item stands before the closing bracket. -/
theorem items_last (hvalue : value depth cs = .ok (v, after))
    (hafter : skipBlanks after = ']' :: rest) : items (depth + 1) cs = .ok ([v], rest) := by
  rw [items, hvalue]
  simp only [bind, Except.bind]
  rw [hafter]
  rfl

/-- Any other item stands before a comma and more items. -/
theorem items_more {vs : List Json} (hvalue : value depth cs = .ok (v, after))
    (hafter : skipBlanks after = ',' :: tail)
    (hitems : items depth (skipBlanks tail) = .ok (vs, rest)) :
    items (depth + 1) cs = .ok (v :: vs, rest) := by
  rw [items, hvalue]
  simp only [bind, Except.bind]
  rw [hafter]
  simp only
  rw [hitems]

variable {name : String}

/-- The last member stands before the closing brace. -/
theorem members_last (hcs : skipBlanks cs = cs) (hvalue : value depth cs = .ok (v, after))
    (hafter : skipBlanks after = '\x7d' :: rest) :
    members (depth + 1) (quote name ++ ':' :: ' ' :: cs) = .ok ([(name, v)], rest) := by
  rw [quote_append, members, stringAfterQuote_escapeChars]
  simp only [bind, Except.bind]
  rw [skipBlanks_cons (by decide)]
  simp only
  rw [skipBlanks_blank, hcs, hvalue]
  simp only
  rw [hafter]
  rfl

/-- Any other member stands before a comma and more members. -/
theorem members_more {others : List (String × Json)} (hcs : skipBlanks cs = cs)
    (hvalue : value depth cs = .ok (v, after)) (hafter : skipBlanks after = ',' :: tail)
    (hmembers : members depth (skipBlanks tail) = .ok (others, rest)) :
    members (depth + 1) (quote name ++ ':' :: ' ' :: cs) = .ok ((name, v) :: others, rest) := by
  rw [quote_append, members, stringAfterQuote_escapeChars]
  simp only [bind, Except.bind]
  rw [skipBlanks_cons (by decide)]
  simp only
  rw [skipBlanks_blank, hcs, hvalue]
  simp only
  rw [hafter]
  simp only
  rw [hmembers]

end Steps

/-! ## Values -/

/-- Printed at any level, a value begins with no blank and no closing bracket, and it is read back
if what follows goes on no number. -/
structure ReadsBack (v : Json) : Prop where
  head : ∀ level, ∃ c cs, v.indented level = c :: cs ∧ isBlank c = false ∧ c ≠ ']'
  value : ∀ (level depth : Nat) (rest : List Char), (v.indented level).length ≤ depth →
    endsNumber rest → Json.value depth (v.indented level ++ rest) = .ok (v, rest)

/-- A line break and the indentation after it are white space. -/
theorem blanks_newLine (level : Nat) : Blanks (newLine level) := by
  intro c hc
  rcases List.mem_cons.mp hc with rfl | hc
  · simp
  · rw [List.eq_of_mem_replicate hc]
    simp

/-- The name of a member begins a line. -/
theorem skipBlanks_quote (level : Nat) (name : String) (rest : List Char) :
    skipBlanks (newLine level ++ (quote name ++ rest)) = quote name ++ rest := by
  rw [quote_append, skipBlanks_append (blanks_newLine level) (by decide)]

namespace ReadsBack

/-- What is printed is never empty, so only depths above zero have to be looked at. -/
theorem of_succ {v : Json}
    (head : ∀ level, ∃ c cs, v.indented level = c :: cs ∧ isBlank c = false ∧ c ≠ ']')
    (value : ∀ (level depth : Nat) (rest : List Char), (v.indented level).length ≤ depth + 1 →
      endsNumber rest → Json.value (depth + 1) (v.indented level ++ rest) = .ok (v, rest)) :
    ReadsBack v where
  head := head
  value level depth rest hdepth hrest := by
    cases depth with
    | zero =>
      obtain ⟨c, cs, htext, -⟩ := head level
      rw [htext] at hdepth
      cases hdepth
    | succ depth => exact value level depth rest hdepth hrest

/-- No blank stands before a printed value. -/
theorem skipBlanks_eq {v : Json} (h : ReadsBack v) (level : Nat) (rest : List Char) :
    skipBlanks (v.indented level ++ rest) = v.indented level ++ rest := by
  obtain ⟨c, cs, heq, hc, -⟩ := h.head level
  rw [heq, List.cons_append, skipBlanks_cons hc]

/-- The blanks before a value are skipped. -/
theorem skipBlanks_append {v : Json} (h : ReadsBack v) {blanks : List Char}
    (hblanks : Blanks blanks) (level : Nat) (rest : List Char) :
    skipBlanks (blanks ++ (v.indented level ++ rest)) = v.indented level ++ rest := by
  obtain ⟨c, cs, heq, hc, -⟩ := h.head level
  rw [heq, List.cons_append, Json.skipBlanks_append hblanks hc]

/-- The items of a list are read one after another, up to the closing bracket. -/
theorem items_eq {v : Json} {vs : List Json} (hreads : ∀ w ∈ v :: vs, ReadsBack w)
    (level depth : Nat) (rest : List Char)
    (hdepth : (v.indented (level + 1) ++ indentedItems level vs).length ≤ depth) :
    items depth (v.indented (level + 1) ++ (indentedItems level vs ++ rest)) =
      .ok (v :: vs, rest) := by
  -- each further item is read at a depth less by one, and has at least one character to pay for it
  induction vs generalizing v depth with
  | nil =>
    simp only [indentedItems, List.length_append, List.length_singleton] at hdepth
    obtain ⟨depth, rfl⟩ := Nat.exists_eq_add_of_le' (show 1 ≤ depth by omega)
    have hv : ReadsBack v := hreads v List.mem_cons_self
    rw [indentedItems, List.append_assoc, List.singleton_append]
    exact items_last (hv.value _ _ _ (by omega) rfl)
      (Json.skipBlanks_append (blanks_newLine level) (by decide) rest)
  | cons w vs ih =>
    simp only [indentedItems, List.length_append, List.length_cons] at hdepth
    obtain ⟨depth, rfl⟩ := Nat.exists_eq_add_of_le' (show 1 ≤ depth by omega)
    obtain ⟨hv, hrest⟩ := List.forall_mem_cons.mp hreads
    have hw : ReadsBack w := hrest w List.mem_cons_self
    rw [indentedItems, List.cons_append, List.append_assoc, List.append_assoc]
    refine items_more (hv.value _ _ _ (by omega) rfl) (skipBlanks_cons (by decide) _) ?_
    rw [hw.skipBlanks_append (blanks_newLine _)]
    exact ih hrest depth (by rw [List.length_append]; omega)

/-- The members of an object are read one after another, up to the closing brace. -/
theorem members_eq {name : String} {v : Json} {others : List (String × Json)}
    (hreads : ∀ member ∈ (name, v) :: others, ReadsBack member.2) (level depth : Nat)
    (rest : List Char)
    (hdepth : (quote name ++ ':' :: ' ' ::
      (v.indented (level + 1) ++ indentedMembers level others)).length ≤ depth) :
    members depth (quote name ++ ':' :: ' ' ::
      (v.indented (level + 1) ++ (indentedMembers level others ++ rest))) =
        .ok ((name, v) :: others, rest) := by
  induction others generalizing name v depth with
  | nil =>
    simp only [indentedMembers, List.length_append, List.length_cons] at hdepth
    obtain ⟨depth, rfl⟩ := Nat.exists_eq_add_of_le' (show 1 ≤ depth by omega)
    have hv : ReadsBack v := hreads (name, v) List.mem_cons_self
    rw [indentedMembers, List.append_assoc, List.singleton_append]
    exact members_last (hv.skipBlanks_eq _ _) (hv.value _ _ _ (by omega) rfl)
      (Json.skipBlanks_append (blanks_newLine level) (by decide) rest)
  | cons other others ih =>
    obtain ⟨next, w⟩ := other
    simp only [indentedMembers, List.length_append, List.length_cons] at hdepth
    obtain ⟨depth, rfl⟩ := Nat.exists_eq_add_of_le' (show 1 ≤ depth by omega)
    have hv : ReadsBack v := hreads (name, v) List.mem_cons_self
    have htail : indentedMembers level ((next, w) :: others) ++ rest =
        ',' :: (newLine (level + 1) ++ (quote next ++ ':' :: ' ' ::
          (w.indented (level + 1) ++ (indentedMembers level others ++ rest)))) := by
      simp [indentedMembers]
    rw [htail]
    refine members_more (hv.skipBlanks_eq _ _) (hv.value _ _ _ (by omega) rfl)
      (skipBlanks_cons (by decide) _) ?_
    rw [skipBlanks_quote]
    refine ih (List.forall_mem_cons.mp hreads).2 depth ?_
    simp only [List.length_append, List.length_cons]
    omega

end ReadsBack

/-- The characters with which no word and no number begins, among them all that a reader looks for
before it reads one. -/
def marks : List Char := [' ', '\t', '\n', '\r', ']', '"', '[', '\x7b']

/-- A digit is not what a reader looks for before it reads a number. -/
theorem not_mem_marks_of_isDigit {c : Char} (h : c.isDigit) : c ∉ marks := by
  simp only [marks, List.mem_cons, List.not_mem_nil, or_false]
  rintro (rfl | rfl | rfl | rfl | rfl | rfl | rfl | rfl) <;> cases h

/-- What is printed as a word or a number is read back. -/
theorem readsBack_scalar {v : Json} {c : Char} {cs : List Char}
    (htext : ∀ level, v.indented level = c :: cs) (hc : c ∉ marks)
    (hread : ∀ rest, endsNumber rest → wordOrNumber (c :: cs ++ rest) = .ok (v, rest)) :
    ReadsBack v := by
  simp only [marks, List.mem_cons, List.not_mem_nil, or_false, not_or] at hc
  apply ReadsBack.of_succ
  · intro level
    refine ⟨c, cs, htext level, ?_, hc.2.2.2.2.1⟩
    simp [isBlank, hc]
  · intro level depth rest _ hrest
    have hvalue := hread rest hrest
    rw [htext]
    rw [List.cons_append] at hvalue ⊢
    -- what is left to show is that the value begins with no quote and no bracket
    rw [value, hvalue]
    · simpa using hc.2.2.2.2.2.1
    · simpa using hc.2.2.2.2.2.2.1
    · simpa using hc.2.2.2.2.2.2.2

/-- A whole number is read back. -/
theorem readsBack_int (n : Int) : ReadsBack (int n) := by
  obtain ⟨d, ds, hd, htext | htext⟩ := exists_digit_toString n
  · refine readsBack_scalar (fun _ => htext) (not_mem_marks_of_isDigit hd) ?_
    intro rest hrest
    rw [← htext]
    exact wordOrNumber_toString n hrest
  · refine readsBack_scalar (fun _ => htext) (by decide) ?_
    intro rest hrest
    rw [← htext]
    exact wordOrNumber_toString n hrest

/-- A text is read back. -/
theorem readsBack_str (s : String) : ReadsBack (str s) := by
  have htext : ∀ level, (str s).indented level = quote s := fun _ => rfl
  apply ReadsBack.of_succ
  · exact fun _ => ⟨'"', _, rfl, by decide⟩
  · intro level depth rest _ _
    rw [htext, quote_append, value_text (textForm_escapeChars s.toList)]

/-- A list is read back if each of its items is. -/
theorem readsBack_arr {items : List Json} (h : ∀ v ∈ items, ReadsBack v) :
    ReadsBack (arr items) := by
  cases items with
  | nil => exact .of_succ (fun _ => ⟨'[', _, rfl, by decide⟩) (fun _ _ _ _ _ => rfl)
  | cons v vs =>
    apply ReadsBack.of_succ (fun _ => ⟨'[', _, rfl, by decide⟩)
    intro level depth rest hdepth _
    have hv : ReadsBack v := h v List.mem_cons_self
    simp only [indented, List.length_append, List.length_cons] at hdepth
    obtain ⟨c, cs, hhead, -, hc⟩ := hv.head (level + 1)
    have hitems := ReadsBack.items_eq h level depth rest (by rw [List.length_append]; omega)
    have hfirst := hv.skipBlanks_append (blanks_newLine (level + 1)) (level + 1)
      (indentedItems level vs ++ rest)
    rw [indented, List.cons_append, List.append_assoc, List.append_assoc]
    rw [hhead, List.cons_append] at hitems hfirst ⊢
    exact value_list hfirst hc hitems

/-- An object is read back if the value of each of its members is. -/
theorem readsBack_obj {members : List (String × Json)}
    (h : ∀ member ∈ members, ReadsBack member.2) : ReadsBack (obj members) := by
  rcases members with _ | ⟨⟨name, v⟩, others⟩
  · exact .of_succ (fun _ => ⟨'\x7b', _, rfl, by decide⟩) (fun _ _ _ _ _ => rfl)
  · apply ReadsBack.of_succ (fun _ => ⟨'\x7b', _, rfl, by decide⟩)
    intro level depth rest hdepth _
    simp only [indented, List.length_append, List.length_cons] at hdepth
    have hmembers := ReadsBack.members_eq h level depth rest (by
      simp only [List.length_append, List.length_cons]
      omega)
    have htext : (obj ((name, v) :: others)).indented level ++ rest =
        '\x7b' :: (newLine (level + 1) ++ (quote name ++ ':' :: ' ' ::
          (v.indented (level + 1) ++ (indentedMembers level others ++ rest)))) := by
      simp [indented]
    rw [htext]
    exact value_object (skipBlanks_quote _ _ _) hmembers

/-- Every value without decimals is read back. -/
theorem Whole.readsBack {v : Json} (h : Whole v) : ReadsBack v := by
  induction h with
  | null => exact readsBack_scalar (fun _ => rfl) (by decide) (fun _ _ => rfl)
  | bool b =>
    cases b with
    | false => exact readsBack_scalar (fun _ => rfl) (by decide) (fun _ _ => rfl)
    | true => exact readsBack_scalar (fun _ => rfl) (by decide) (fun _ _ => rfl)
  | int n => exact readsBack_int n
  | str s => exact readsBack_str s
  | arr _ ih => exact readsBack_arr ih
  | obj _ ih => exact readsBack_obj ih

/-- A printed value is read as that value. -/
theorem parse_indented {v : Json} (h : Whole v) : parse (v.indented 0) = .ok v := by
  have hvalue := h.readsBack.value 0 ((v.indented 0).length + 1) [] (Nat.le_succ _) rfl
  have hskip := h.readsBack.skipBlanks_eq 0 []
  rw [List.append_nil] at hvalue hskip
  rw [parse, hskip, hvalue]
  rfl

end Json

end CrateAnalysis
