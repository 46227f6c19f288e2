import CrateAnalysis.Proofs.Tree.Nodes
import CrateAnalysis.Tree.Validation

/-!
# Serialised trees

Which JSON values are concrete trees can be said without the reader: `Json.Serialises` asks for some
members of each node and lets it have any others. Every part of the reader decides what it asks for,
in that it accepts a value just if this is asked for and otherwise finds something wrong. Parts put
together decide what they ask for together, and so, by induction on the recursion of the reader, the
whole of it decides which values are serialised trees.
-/

set_option autoImplicit false

namespace CrateAnalysis

namespace Json

variable {members : List (String × Json)} {name : String} {v w : Json}

/-! ## Members -/

/-- The last member of this name has this value. -/
def Has (members : List (String × Json)) (name : String) (v : Json) : Prop :=
  ∃ before after, members = before ++ (name, v) :: after ∧ ∀ other ∈ after, other.1 ≠ name

/-- No member has this name. -/
def Lacks (members : List (String × Json)) (name : String) : Prop :=
  ∀ other ∈ members, other.1 ≠ name

/-- The value of a name, if it has one, is what the reader looks up. -/
theorem has_iff : Has members name v ↔ member? members name = some v := by
  unfold member? Has
  constructor
  · rintro ⟨before, after, rfl, hafter⟩
    have hfind : (before ++ (name, v) :: after).reverse.find? (·.1 = name) = some (name, v) := by
      refine List.find?_eq_some_iff_append.mpr ⟨by simp, after.reverse, before.reverse, by simp, ?_⟩
      intro other hother
      simpa using hafter other (List.mem_reverse.mp hother)
    rw [hfind, Option.map_some]
  · intro h
    obtain ⟨⟨key, value⟩, hfind, rfl⟩ := Option.map_eq_some_iff.mp h
    obtain ⟨hkey, after, before, hmembers, hafter⟩ := List.find?_eq_some_iff_append.mp hfind
    obtain rfl : key = name := by simpa using hkey
    refine ⟨before.reverse, after.reverse, ?_, ?_⟩
    · simpa using congrArg List.reverse hmembers
    · intro other hother
      simpa using hafter other (List.mem_reverse.mp hother)

/-- The reader finds nothing just if no member has the name. -/
theorem lacks_iff : Lacks members name ↔ member? members name = none := by
  simp [member?, Lacks]

/-- A name has one value at most. -/
theorem Has.unique (hv : Has members name v) (hw : Has members name w) : v = w := by
  rw [has_iff] at hv hw
  exact Option.some.inj (hv.symm.trans hw)

/-- A name that no member has has no value. -/
theorem Lacks.not_has (h : Lacks members name) : ¬ Has members name v := by
  rw [lacks_iff] at h
  rw [has_iff, h]
  simp

/-! ## The relation -/

/-- The two kinds of nodes are told apart. -/
theorem terminal_ne_rule : str "terminal" ≠ str "rule" := by simp

/-- The member of this name is a text, or there is none: the member is null or is not there. -/
inductive Offers (members : List (String × Json)) (name : String) : Option String → Prop
  | text {s : String} : Has members name (.str s) → Offers members name (some s)
  | null : Has members name .null → Offers members name none
  | absent : Lacks members name → Offers members name none

mutual

/-- A JSON value is a serialised concrete tree. -/
inductive Serialises : Json → Cst → Prop
  | terminal {members : List (String × Json)} {text : String} {kind? : Option String} :
      Has members "kind" (.str "terminal") → Has members "text" (.str text) →
      Offers members "token_type" kind? → Serialises (.obj members) (.leaf ⟨text, kind?⟩)
  | rule {members : List (String × Json)} {name : String} {children : List Cst} :
      Has members "kind" (.str "rule") → Has members "name" (.str name) →
      SerialisesChildren members children → Serialises (.obj members) (.rule name children)

/-- The members of a rule list its serialised children, or leave them out if there are none. -/
inductive SerialisesChildren : List (String × Json) → List Cst → Prop
  | listed {members : List (String × Json)} {items : List Json} {children : List Cst} :
      Has members "children" (.arr items) → SerialisesAll items children →
      SerialisesChildren members children
  | absent {members : List (String × Json)} :
      Lacks members "children" → SerialisesChildren members []

/-- JSON values are serialised concrete trees, one each, in order. -/
inductive SerialisesAll : List Json → List Cst → Prop
  | nil : SerialisesAll [] []
  | cons {v : Json} {t : Cst} {items : List Json} {trees : List Cst} :
      Serialises v t → SerialisesAll items trees → SerialisesAll (v :: items) (t :: trees)

end

/-- Without a member there is no text, and nothing is wrong. -/
theorem offers_of_lacks (h : Lacks members name) {text? : Option String} :
    Offers members name text? ↔ none = text? := by
  constructor
  · rintro (htext | _ | _)
    · exact absurd htext h.not_has
    · rfl
    · rfl
  · rintro rfl
    exact .absent h

/-- A member gives a text if it is one, and none if it is null. -/
theorem offers_of_has (h : Has members name v) {text? : Option String} :
    Offers members name text? ↔ v = .null ∧ none = text? ∨ ∃ s, v = .str s ∧ some s = text? := by
  constructor
  · rintro (htext | hnull | hlacks)
    · exact .inr ⟨_, h.unique htext, rfl⟩
    · exact .inl ⟨h.unique hnull, rfl⟩
    · exact absurd h hlacks.not_has
  · rintro (⟨rfl, rfl⟩ | ⟨s, rfl, rfl⟩)
    · exact .null h
    · exact .text h

/-- Without a member there are no children. -/
theorem serialisesChildren_of_lacks (h : Lacks members "children") {children : List Cst} :
    SerialisesChildren members children ↔ [] = children := by
  constructor
  · rintro (⟨hitems, -⟩ | _)
    · exact absurd hitems h.not_has
    · rfl
  · rintro rfl
    exact .absent h

/-- A member gives the children if it is a list of them, serialised. -/
theorem serialisesChildren_of_has (h : Has members "children" v) {children : List Cst} :
    SerialisesChildren members children ↔
      ∃ items, v = .arr items ∧ SerialisesAll items children := by
  constructor
  · rintro (⟨hitems, hall⟩ | hlacks)
    · exact ⟨_, h.unique hitems, hall⟩
    · exact absurd h hlacks.not_has
  · rintro ⟨items, rfl, hall⟩
    exact .listed h hall

end Json

/-! ## Checks that decide -/

namespace Checked

variable {α β γ : Type}

/-- A check accepts a value just if it is asked for, and if none is it finds something wrong. -/
structure Decides (check : Checked α) (asked : α → Prop) : Prop where
  accepts : ∀ a, check = .ok a ↔ asked a
  reports : check ≠ .error []

/-- What is decided may be said in other words. -/
theorem Decides.of_iff {check : Checked α} {asked other : α → Prop} (h : check.Decides asked)
    (hiff : ∀ a, asked a ↔ other a) : check.Decides other :=
  ⟨fun a => (h.accepts a).trans (hiff a), h.reports⟩

/-- A check that accepts a value decides that it is this one. -/
theorem decides_ok (a : α) : Decides (.ok a) (a = ·) :=
  ⟨fun b => by simp, nofun⟩

/-- An issue is right where nothing is asked for. -/
theorem decides_issue {asked : α → Prop} (kind : IssueKind) (path : List PathStep)
    (h : ∀ a, ¬ asked a) : Decides (issue kind path) asked :=
  ⟨fun a => by simp [issue, h a], by simp [issue]⟩

/-- What is made of an accepted value is decided with it. -/
theorem Decides.map {check : Checked α} {asked : α → Prop} (h : check.Decides asked) (f : α → β) :
    Decides (check.map f) fun b => ∃ a, asked a ∧ f a = b := by
  obtain ⟨haccepts, hreports⟩ := h
  cases check with
  | ok a =>
    refine (decides_ok (f a)).of_iff fun b => ?_
    simp [← haccepts]
  | error issues =>
    refine ⟨fun b => ?_, by simpa [Except.map] using hreports⟩
    simp [Except.map, ← haccepts]

/-- Two checks together decide what is asked of each. -/
theorem Decides.both {first : Checked α} {second : Checked β} {asked : α → Prop} {other : β → Prop}
    (hfirst : first.Decides asked) (hsecond : second.Decides other) (f : α → β → γ) :
    Decides (both f first second) fun c => ∃ a b, asked a ∧ other b ∧ f a b = c := by
  obtain ⟨hfirst, hissues⟩ := hfirst
  obtain ⟨hsecond, hothers⟩ := hsecond
  cases first with
  | ok a =>
    cases second with
    | ok b =>
      refine (decides_ok (f a b)).of_iff fun c => ?_
      simp [← hfirst, ← hsecond]
    | error others =>
      refine ⟨fun c => ?_, by simpa [Checked.both] using hothers⟩
      simp [Checked.both, ← hsecond]
  | error issues =>
    cases second with
    | ok b =>
      refine ⟨fun c => ?_, by simpa [Checked.both] using hissues⟩
      simp [Checked.both, ← hfirst]
    | error others =>
      refine ⟨fun c => ?_, ?_⟩
      · simp [Checked.both, ← hfirst]
      · simp only [Checked.both, ne_eq, Except.error.injEq, List.append_eq_nil_iff]
        rintro ⟨rfl, -⟩
        exact hissues rfl

/-- To change an accepted value is to put a second one beside it that is always accepted. -/
theorem map_eq_both (check : Checked α) (f : α → β → γ) (b : β) :
    check.map (f · b) = both f check (.ok b) := by
  cases check <;> rfl

end Checked

/-! ## The reader -/

open Json (Has Lacks Offers Serialises SerialisesChildren SerialisesAll)

variable {members : List (String × Json)}

/-- The reader decides whether a member is the text that has to be there. -/
theorem decides_requiredText (name : String) (path : List PathStep) :
    (requiredText members name path).Decides fun s => Has members name (.str s) := by
  unfold requiredText
  split
  next s hmember =>
    refine (Checked.decides_ok s).of_iff fun other => ?_
    simp [Json.has_iff, hmember]
  next v htext hmember =>
    refine Checked.decides_issue _ _ fun s hs => ?_
    exact htext s ((Json.has_iff.mpr hmember).unique hs)
  next hmember =>
    exact Checked.decides_issue _ _ fun s => (Json.lacks_iff.mpr hmember).not_has

/-- The reader decides whether a member is a text or may be left out. -/
theorem decides_optionalText (name : String) (path : List PathStep) :
    (optionalText members name path).Decides (Offers members name) := by
  unfold optionalText
  split
  next s hmember =>
    refine (Checked.decides_ok (some s)).of_iff fun text? => ?_
    simp [Json.offers_of_has (Json.has_iff.mpr hmember)]
  next hmember =>
    refine (Checked.decides_ok none).of_iff fun text? => ?_
    simp [Json.offers_of_has (Json.has_iff.mpr hmember)]
  next hmember =>
    refine (Checked.decides_ok none).of_iff fun text? => ?_
    rw [Json.offers_of_lacks (Json.lacks_iff.mpr hmember)]
  next v htext hnull hmember =>
    refine Checked.decides_issue _ _ fun text? hoffers => ?_
    rcases (Json.offers_of_has (Json.has_iff.mpr hmember)).mp hoffers with
      ⟨hv, -⟩ | ⟨s, hv, -⟩
    · exact hnull hv
    · exact htext s hv

/-- The reader decides whether a node that says so is a terminal. -/
theorem decides_terminal (hkind : Has members "kind" (.str "terminal"))
    (path : List PathStep) :
    Checked.Decides ((cstFormat.leaf members path).map .leaf) (Serialises (.obj members)) := by
  refine (((decides_requiredText "text" path).both (decides_optionalText "token_type" path)
    Leaf.mk).map Tree.leaf).of_iff fun t => ?_
  constructor
  · rintro ⟨_, ⟨text, kind?, htext, htoken, rfl⟩, rfl⟩
    exact .terminal hkind htext htoken
  · rintro (⟨-, htext, htoken⟩ | ⟨hrule, -, -⟩)
    · exact ⟨_, ⟨_, _, htext, htoken, rfl⟩, rfl⟩
    · exact absurd (hkind.unique hrule) Json.terminal_ne_rule

/-- A rule is decided once its children are. -/
theorem decides_rule (hkind : Has members "kind" (.str "rule")) (path : List PathStep)
    {check : Checked (List Cst)} (hcheck : check.Decides (SerialisesChildren members)) :
    (Checked.both .rule (requiredText members "name" path) check).Decides
      (Serialises (.obj members)) := by
  refine ((decides_requiredText "name" path).both hcheck Tree.rule).of_iff fun t => ?_
  constructor
  · rintro ⟨name, children, hname, hchildren, rfl⟩
    exact .rule hkind hname hchildren
  · rintro (⟨hterminal, -, -⟩ | ⟨-, hname, hchildren⟩)
    · exact absurd (hterminal.unique hkind) Json.terminal_ne_rule
    · exact ⟨_, _, hname, hchildren, rfl⟩

/-- A node that is neither a terminal nor a rule is no tree. -/
theorem decides_otherKind (hterminal : ¬ Has members "kind" (.str "terminal"))
    (hrule : ¬ Has members "kind" (.str "rule")) (issue : IssueKind) (path : List PathStep) :
    (Checked.issue issue path).Decides (Serialises (.obj members)) := by
  refine Checked.decides_issue issue path ?_
  rintro t (⟨hkind, -, -⟩ | ⟨hkind, -, -⟩)
  · exact hterminal hkind
  · exact hrule hkind

/-- The reader decides whether a value is a serialised tree, wherever it stands. -/
theorem decides_readTree : ∀ (path : List PathStep) (v : Json),
    (readTree cstFormat path v).Decides (Serialises v) := by
  refine readTree.induct cstFormat _
    (fun path n items => (readChildren cstFormat path n items).Decides (SerialisesAll items))
    ?kindMissing ?terminal ?childless ?rule ?notList ?kindUnknown ?notObject ?nil ?cons
  case kindMissing =>
    intro path members hkind
    rw [readTree, hkind]
    have hlacks := Json.lacks_iff.mpr hkind
    exact decides_otherKind hlacks.not_has hlacks.not_has _ _
  case terminal =>
    intro path members hkind
    rw [readTree, hkind]
    exact decides_terminal (Json.has_iff.mpr hkind) _
  case childless =>
    intro path members hkind hchildren
    rw [readTree, hkind]
    simp only
    rw [hchildren]
    simp only [Checked.map_eq_both]
    refine decides_rule (Json.has_iff.mpr hkind) _ ((Checked.decides_ok []).of_iff ?_)
    intro children
    rw [Json.serialisesChildren_of_lacks (Json.lacks_iff.mpr hchildren)]
  case rule =>
    intro path members hkind here items hchildren ih
    rw [readTree, hkind]
    simp only
    rw [hchildren]
    refine decides_rule (Json.has_iff.mpr hkind) _ (ih.of_iff ?_)
    intro children
    simp [Json.serialisesChildren_of_has (Json.has_iff.mpr hchildren)]
  case notList =>
    intro path members hkind v hv hchildren
    rw [readTree, hkind]
    simp only
    rw [hchildren]
    simp only
    refine decides_rule (Json.has_iff.mpr hkind) _ (Checked.decides_issue _ _ ?_)
    intro children hserialises
    obtain ⟨items, hitems, -⟩ :=
      (Json.serialisesChildren_of_has (Json.has_iff.mpr hchildren)).mp hserialises
    exact hv items hitems
  case kindUnknown =>
    intro path members kind hterminal hrule hkind
    have hread : readTree cstFormat path (.obj members) =
        Checked.issue (.tagUnknown kind.shownTag) path := by
      rw [readTree, hkind]
      split
      next hnone => cases hnone
      next hsome => exact absurd (Option.some.inj hsome) hterminal
      next hsome => exact absurd (Option.some.inj hsome) hrule
      next hsome => rw [Option.some.inj hsome]
    rw [hread]
    have hhas := Json.has_iff.mpr hkind
    exact decides_otherKind (fun h => hterminal (hhas.unique h)) (fun h => hrule (hhas.unique h))
      _ _
  case notObject =>
    intro path v hv
    have hread : readTree cstFormat path v = Checked.issue .notObject path := by
      rw [readTree]
      exact hv
    rw [hread]
    refine Checked.decides_issue _ _ ?_
    rintro t (_ | _)
    · exact hv _ rfl
    · exact hv _ rfl
  case nil =>
    intro path n
    rw [readChildren]
    refine (Checked.decides_ok []).of_iff fun trees => ?_
    constructor
    · rintro rfl
      exact .nil
    · rintro ⟨⟩
      rfl
  case cons =>
    intro path n v items ih ihitems
    rw [readChildren]
    refine (ih.both ihitems List.cons).of_iff fun trees => ?_
    constructor
    · rintro ⟨t, rest, ht, hrest, rfl⟩
      exact .cons ht hrest
    · rintro (_ | ⟨ht, hrest⟩)
      exact ⟨_, _, ht, hrest, rfl⟩

/-! ## Serialising -/

namespace Tree

mutual

/-- A concrete tree as a JSON value in which no member is left out. -/
def serialise : Cst → Json
  | leaf a => .obj [("kind", .str "terminal"), ("text", .str a.text),
      ("token_type", a.kind?.elim .null .str)]
  | rule name children => .obj [("kind", .str "rule"), ("name", .str name),
      ("children", .arr (serialiseAll children))]

/-- Several concrete trees as JSON values. -/
def serialiseAll : List Cst → List Json
  | [] => []
  | t :: trees => t.serialise :: serialiseAll trees

end

/-- A leaf is serialised as itself. -/
theorem serialises_serialise_leaf (a : Leaf) : (serialise (.leaf a)).Serialises (.leaf a) := by
  refine .terminal ?_ ?_ ?_
  · simp [Json.has_iff, Json.member?]
  · simp [Json.has_iff, Json.member?]
  · cases hkind : a.kind? with
    | none => exact .null (by simp [Json.has_iff, Json.member?])
    | some kind => exact .text (by simp [Json.has_iff, Json.member?])

/-- A rule is serialised as itself if its children are. -/
theorem serialises_serialise_rule {name : String} {children : List Cst}
    (h : SerialisesAll (serialiseAll children) children) :
    (serialise (.rule name children)).Serialises (.rule name children) := by
  refine .rule ?_ ?_ (.listed ?_ h)
  · simp [Json.has_iff, Json.member?]
  · simp [Json.has_iff, Json.member?]
  · simp [Json.has_iff, Json.member?]

/-- Trees are serialised as themselves, one by one. -/
theorem serialises_serialiseAll (trees : List Cst) : SerialisesAll (serialiseAll trees) trees := by
  induction trees using forestInduction with
  | nil => exact .nil
  | leaf a trees ih => exact .cons (serialises_serialise_leaf a) ih
  | rule name children trees ihchildren ih =>
    exact .cons (serialises_serialise_rule ihchildren) ih

/-- Every tree is serialised as itself. -/
theorem serialises_serialise (t : Cst) : t.serialise.Serialises t := by
  cases t with
  | leaf a => exact serialises_serialise_leaf a
  | rule name children => exact serialises_serialise_rule (serialises_serialiseAll children)

end Tree

/-- Validation accepts just the serialised concrete trees, and reads each of them as the one tree
that it is. What is no such tree has at least one thing wrong with it, and every tree is read back
from the value in which it is written. -/
theorem readCst_accepts_serialised (path : List PathStep) :
    (∀ (v : Json) (t : Cst), readCst path v = .ok t ↔ v.Serialises t) ∧
      (∀ v : Json, (∃ issue issues, readCst path v = .error (issue :: issues)) ↔
        ¬ ∃ t, v.Serialises t) ∧
      (∀ (v : Json) (t other : Cst), v.Serialises t → v.Serialises other → t = other) ∧
      ∀ t : Cst, t.serialise.Serialises t ∧ readCst path t.serialise = .ok t := by
  have haccepts (v : Json) (t : Cst) : readCst path v = .ok t ↔ v.Serialises t :=
    (decides_readTree path v).accepts t
  refine ⟨haccepts, ?_, ?_, ?_⟩
  · intro v
    simp only [← haccepts]
    have hreports : readCst path v ≠ .error [] := (decides_readTree path v).reports
    cases hread : readCst path v with
    | ok t => simp
    | error issues =>
      obtain ⟨issue, rest, rfl⟩ := List.exists_cons_of_ne_nil (fun hnil => hreports (hnil ▸ hread))
      simp
  · intro v t other ht hother
    rw [← haccepts] at ht hother
    exact Except.ok.inj (ht.symm.trans hother)
  · intro t
    have ht := t.serialises_serialise
    exact ⟨ht, (haccepts _ t).mpr ht⟩

/-- A rule whose name is written twice, with a token of no known kind and a rule that leaves out its
children, in the midst of other members. -/
theorem readCst_accepts_sparse :
    let token : Json :=
      .obj [("line", .int 1), ("text", .str "x"), ("token_type", .null), ("kind", .str "terminal")]
    let childless : Json := .obj [("name", .str "b"), ("kind", .str "rule"), ("text", .bool true)]
    let v : Json := .obj [("name", .int 0), ("kind", .str "rule"),
      ("children", .arr [token, childless]), ("name", .str "a")]
    let t : Cst := .rule "a" [.leaf ⟨"x", none⟩, .rule "b" []]
    v.Serialises t ∧ readCst [] v = .ok t ∧ readCst [] t.serialise = .ok t := by
  intro token childless v t
  have htoken : token.Serialises (.leaf ⟨"x", none⟩) := by
    refine .terminal ?_ ?_ (.null ?_) <;> simp [Json.has_iff, Json.member?]
  have hchildless : childless.Serialises (.rule "b" []) := by
    refine .rule ?_ ?_ (.absent ?_) <;> simp [Json.has_iff, Json.lacks_iff, Json.member?]
  have hv : v.Serialises t := by
    refine .rule ?_ ?_ (.listed ?_ (.cons htoken (.cons hchildless .nil))) <;>
      simp [Json.has_iff, Json.member?]
  obtain ⟨haccepts, -, -, hback⟩ := readCst_accepts_serialised []
  exact ⟨hv, (haccepts v t).mpr hv, (hback t).2⟩

end CrateAnalysis
