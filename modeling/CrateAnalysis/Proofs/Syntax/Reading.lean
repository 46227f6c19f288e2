import CrateAnalysis.Proofs.Chart.Recognition
import CrateAnalysis.Proofs.Chart.Trees
import CrateAnalysis.Proofs.Grammar.Crate
import CrateAnalysis.Proofs.Grammar.Expansion
import CrateAnalysis.Proofs.Syntax.Expected
import CrateAnalysis.Syntax.Parse

/-!
# What becomes of reading lexemes

The chart of the grammar of a crate decides the language of the rules as they are written. So
reading a list of lexemes ends in one of three ways, each described without the chart: the
lexemes are a crate, and the children of the root are derivation trees over their leaves; or
they stop being the beginning of a crate at some lexeme; or they are the beginning of a crate
but not a whole one. What is expected is then exactly what keeps them the beginning of a crate.
-/

set_option autoImplicit false

namespace CrateAnalysis

/-- Some continuation makes the word a crate. -/
def BeginsCrate (word : List Terminal) : Prop := ∃ rest, IsCrate (word ++ rest)

/-- A crate begins itself. -/
theorem IsCrate.begins {word : List Terminal} (h : IsCrate word) : BeginsCrate word :=
  ⟨[], by rwa [List.append_nil]⟩

/-- The beginning of what begins a crate begins that crate. -/
theorem BeginsCrate.of_append {first second : List Terminal} (h : BeginsCrate (first ++ second)) :
    BeginsCrate first := by
  obtain ⟨rest, h⟩ := h
  exact ⟨second ++ rest, by rwa [← List.append_assoc]⟩

/-! ## The chart of a word of lexemes -/

/-- A word is viable for the grammar just if it begins a crate. -/
theorem viable_iff_beginsCrate {word : List Terminal} :
    crateGrammar.Viable word ↔ BeginsCrate word :=
  exists_congr fun _ => generates_iff_isCrate

/-- What the chart reads is the beginning of a crate. -/
theorem beginsCrate_take_reached (word : List Terminal) :
    BeginsCrate (word.take (Chart.reached (crateGrammar.chart word))) :=
  viable_iff_beginsCrate.mp (Grammar.viable_take_reached wellFormed_crateGrammar word)

/-- Together with the terminal at which the chart stops, it is not. -/
theorem not_beginsCrate_take_succ_reached {word : List Terminal} {t : Terminal}
    (ht : word[Chart.reached (crateGrammar.chart word)]? = some t) :
    ¬ BeginsCrate (word.take (Chart.reached (crateGrammar.chart word)) ++ [t]) := by
  rw [← viable_iff_beginsCrate]
  exact Grammar.not_viable_take_succ_reached wellFormed_crateGrammar ht

/-- The chart expects just the terminals that can follow the part of the word that it has reached.
-/
theorem mem_expected_iff_beginsCrate {word : List Terminal} {t : Terminal} :
    t ∈ Chart.expected (crateGrammar.chart word) ↔
      BeginsCrate (word.take (Chart.reached (crateGrammar.chart word)) ++ [t]) := by
  rw [← viable_iff_beginsCrate]
  exact Grammar.mem_expected_iff wellFormed_crateGrammar

/-- The children of a whole crate are those of a derivation tree whose root is the crate. -/
theorem derivationTrees_of_forest {p : Production Terminal Nonterminal} {children : List Cst}
    {word : List (Terminal × Leaf)} (hp : p ∈ crateGrammar.alternatives (.rule .crate))
    (hforest : crateGrammar.Forest p.rhs children word)
    (hkinds : ∀ pair ∈ word, pair.2.kind? = some pair.1.name) :
    DerivationTrees [.rule .crate] [.rule rootName children] := by
  obtain ⟨choice, hchoice, -, hlabel⟩ := exists_choice_of_mem hp
  have hname : choice.nodeName .crate = rootName := by
    obtain rfl := List.mem_singleton.mp hchoice
    rfl
  have hwhole := Grammar.Forest.labelled hp (hname ▸ hlabel) hforest .nil
  obtain ⟨atoms, hexpands, htrees⟩ := hwhole.derivationTrees (by simpa using hkinds)
  obtain rfl := @Expands.eq_of_symbols [.rule .crate] _ hexpands
  exact htrees

/-! ## The three ways -/

/-- What a reading of lexemes says about them. -/
def Reading.Describes (lexemes : List Lexeme) : Reading → Prop
  | .complete children =>
    IsCrate (lexemes.map (·.terminal)) ∧
      DerivationTrees [.rule .crate] [.rule rootName children] ∧
      Tree.leavesAll children = lexemes.map (·.token.leaf)
  | .unexpected lexeme expected =>
    ∃ before after, lexemes = before ++ lexeme :: after ∧
      BeginsCrate (before.map (·.terminal)) ∧
      ¬ BeginsCrate ((before ++ [lexeme]).map (·.terminal)) ∧
      ∀ t, t ∈ expected ↔ BeginsCrate (before.map (·.terminal) ++ [t])
  | .cutShort expected =>
    BeginsCrate (lexemes.map (·.terminal)) ∧
      ¬ IsCrate (lexemes.map (·.terminal)) ∧
      ∀ t, t ∈ expected ↔ BeginsCrate (lexemes.map (·.terminal) ++ [t])

/-- The lexeme at which the chart stops cannot stand where it does. -/
theorem describes_unexpected {lexemes after : List Lexeme} {lexeme : Lexeme} {chart}
    (hchart : chart = crateGrammar.chart (lexemes.map (·.terminal)))
    (hdrop : lexemes.drop (Chart.reached chart) = lexeme :: after) :
    (Reading.unexpected lexeme (Chart.expected chart)).Describes lexemes := by
  obtain ⟨n, hn⟩ : ∃ n, n = Chart.reached chart := ⟨_, rfl⟩
  rw [← hn] at hdrop
  subst hchart
  have hbegins := beginsCrate_take_reached (lexemes.map (·.terminal))
  have hnext : (lexemes.map (·.terminal))[n]? = some lexeme.terminal := by
    rw [List.getElem?_map, ← Nat.add_zero n, ← List.getElem?_drop, hdrop]
    rfl
  have hstuck := not_beginsCrate_take_succ_reached (hn ▸ hnext)
  rw [← hn, ← List.map_take] at hbegins hstuck
  refine ⟨lexemes.take n, after, ?_, hbegins, ?_, fun t => ?_⟩
  · rw [← hdrop, List.take_append_drop]
  · rw [List.map_append]
    exact hstuck
  · rw [mem_expected_iff_beginsCrate, ← hn, List.map_take]

/-- Reading lexemes ends in the way that their terminals call for. -/
theorem describes_readLexemes (lexemes : List Lexeme) :
    (readLexemes lexemes).Describes lexemes := by
  unfold readLexemes
  dsimp only
  split
  next lexeme after hdrop => exact describes_unexpected rfl hdrop
  next hdrop =>
    obtain ⟨word, hword⟩ : ∃ word, word = lexemes.map (·.terminal) := ⟨_, rfl⟩
    rw [← hword] at hdrop ⊢
    have hreached : Chart.reached (crateGrammar.chart word) = word.length := by
      have hle := List.drop_eq_nil_iff.mp hdrop
      have hlast := (Grammar.charted_chart wellFormed_crateGrammar word).1.last_le
      have hlength : word.length = lexemes.length := by rw [hword, List.length_map]
      omega
    have hleaves : (lexemes.map (·.token.leaf)).toArray.size = word.length := by
      rw [hword, List.size_toArray, List.length_map, List.length_map]
    rcases Chart.children?_spec wellFormed_crateGrammar unitRank_crateGrammar hleaves hreached with
      ⟨hgenerates, children, hchildren, p, hp, hforest⟩ | ⟨hgenerates, hchildren⟩
    · rw [hchildren]
      rw [hword, List.toList_toArray, List.zip_map'] at hforest
      refine ⟨hword ▸ generates_iff_isCrate.mp hgenerates, ?_, ?_⟩
      · apply derivationTrees_of_forest hp hforest
        intro pair hpair
        obtain ⟨lexeme, -, rfl⟩ := List.mem_map.mp hpair
        rfl
      · rw [hforest.leavesAll_eq, List.map_map]
        rfl
    · rw [hchildren]
      have hbegins := beginsCrate_take_reached word
      rw [hreached, List.take_length] at hbegins
      refine ⟨hword ▸ hbegins, ?_, fun t => ?_⟩
      · rw [← hword, ← generates_iff_isCrate]
        exact hgenerates
      · rw [mem_expected_iff_beginsCrate, hreached, List.take_length, hword]

/-! ## Kinds of tokens -/

/-- The kinds, one after another, are those of the terminals of a crate. -/
def KindsOfCrate (kinds : List String) : Prop :=
  ∃ word, IsCrate word ∧ word.map Terminal.name = kinds

/-- Some continuation makes the kinds those of a crate. -/
def ViableKinds (kinds : List String) : Prop := ∃ rest, KindsOfCrate (kinds ++ rest)

/-- The names of terminals are the kinds of a crate just if the terminals make one. -/
theorem kindsOfCrate_map_name {word : List Terminal} :
    KindsOfCrate (word.map Terminal.name) ↔ IsCrate word := by
  constructor
  · rintro ⟨other, hother, hnames⟩
    rwa [← Terminal.map_name_injective hnames]
  · intro h
    exact ⟨word, h, rfl⟩

/-- The names of terminals begin the kinds of a crate just if the terminals begin one. -/
theorem viableKinds_map_name {word : List Terminal} :
    ViableKinds (word.map Terminal.name) ↔ BeginsCrate word := by
  constructor
  · rintro ⟨rest, other, hother, hnames⟩
    obtain ⟨first, second, rfl, hfirst, -⟩ := List.map_eq_append_iff.mp hnames
    obtain rfl := Terminal.map_name_injective hfirst
    exact ⟨second, hother⟩
  · rintro ⟨rest, h⟩
    exact ⟨rest.map Terminal.name, _, h, List.map_append⟩

/-- What comes first in viable kinds is viable too. -/
theorem ViableKinds.of_initial {initial kinds : List String} (h : ViableKinds kinds)
    (hinitial : initial <+: kinds) : ViableKinds initial := by
  obtain ⟨later, rfl⟩ := hinitial
  obtain ⟨rest, h⟩ := h
  exact ⟨later ++ rest, by rwa [← List.append_assoc]⟩

open Classical in
/-- The terminals that can follow the kinds in the beginning of a crate. -/
noncomputable def followers (kinds : List String) : List Terminal :=
  Terminal.all.filter fun t => ViableKinds (kinds ++ [t.name])

/-- A terminal follows some kinds just if they stay viable with it. -/
theorem mem_followers_iff {kinds : List String} {t : Terminal} :
    t ∈ followers kinds ↔ ViableKinds (kinds ++ [t.name]) := by
  simp only [followers, List.mem_filter, t.mem_all, true_and, decide_eq_true_eq]

/-- The description of some terminals depends on which they are, and on nothing else. -/
theorem describeTerminals_congr {terminals others : List Terminal}
    (h : ∀ t, t ∈ terminals ↔ t ∈ others) :
    describeTerminals terminals = describeTerminals others := by
  have hordered : Expected.ordered (terminals.map Terminal.name) =
      Expected.ordered (others.map Terminal.name) := by
    apply Expected.ordered_congr
    intro shown
    simp only [List.mem_map, h]
  rw [describeTerminals, describeTerminals, Expected.describe, Expected.describe, hordered]

/-- What is expected after a word is described as what can follow the kinds. -/
theorem describeTerminals_followers {expected word : List Terminal}
    (h : ∀ t, t ∈ expected ↔ BeginsCrate (word ++ [t])) :
    describeTerminals expected = describeTerminals (followers (word.map Terminal.name)) := by
  apply describeTerminals_congr
  intro t
  rw [h, mem_followers_iff, ← viableKinds_map_name, List.map_append]
  rfl

end CrateAnalysis
