import CrateAnalysis.Grammar.Basic
import Mathlib.Data.List.Nodup

/-!
# Derivations

A derivation of two lists of symbols in a row is a derivation of each. `Grammar.WellFormed` says
what a grammar must satisfy for a chart to decide it: the productions of a nonterminal are told
apart by their numbers, every nonterminal in use has alternatives and derives some word, and a
production without symbols belongs to a nonterminal that occurs in no production. In such a
grammar whatever occurs in a production derives only words that are not empty.

A word is viable when some continuation makes it a word of the grammar. A `UnitRank` bounds how
often a derivation can pass from one nonterminal to another without any other symbol.
-/

set_option autoImplicit false

namespace CrateAnalysis

namespace Grammar

variable {T N : Type} {g : Grammar T N}

/-- Symbols in a row derive what each part derives, in a row. -/
theorem Derives.append {first second : List (Symbol T N)} {u v : List T}
    (hu : g.Derives first u) (hv : g.Derives second v) : g.Derives (first ++ second) (u ++ v) := by
  induction hu with
  | nil => exact hv
  | terminal _ ih => exact .terminal ih
  | nonterminal hp hrhs _ _ ih =>
    rw [List.append_assoc]
    exact .nonterminal hp hrhs ih

/-- A word derived from two lists of symbols in a row is made of a word of each. -/
theorem Derives.split {first second : List (Symbol T N)} {word : List T}
    (h : g.Derives (first ++ second) word) :
    ∃ u v, word = u ++ v ∧ g.Derives first u ∧ g.Derives second v := by
  induction first generalizing word with
  | nil => exact ⟨[], word, rfl, .nil, h⟩
  | cons symbol first ih =>
    cases h with
    | terminal h =>
      obtain ⟨u, v, rfl, hu, hv⟩ := ih h
      exact ⟨_ :: u, v, rfl, .terminal hu, hv⟩
    | @nonterminal n p _ x _ hp hrhs h =>
      obtain ⟨u, v, rfl, hu, hv⟩ := ih h
      exact ⟨x ++ u, v, (List.append_assoc x u v).symm, .nonterminal hp hrhs hu, hv⟩

/-- A nonterminal derives what one of its alternatives derives. -/
theorem derives_nonterminal_iff {n : N} {word : List T} :
    g.Derives [.nonterminal n] word ↔ ∃ p ∈ g.alternatives n, g.Derives p.rhs word := by
  constructor
  · intro h
    cases h with
    | nonterminal hp hrhs hnil =>
      cases hnil
      exact ⟨_, hp, by rwa [List.append_nil]⟩
  · rintro ⟨p, hp, h⟩
    simpa using Derives.nonterminal hp h .nil

/-- A nonterminal derives what one of its right-hand sides derives. -/
theorem Derives.of_rhs {n : N} {symbols : List (Symbol T N)} {word : List T}
    (h : g.Derives symbols word) (hrhs : ∃ p ∈ g.alternatives n, p.rhs = symbols) :
    g.Derives [.nonterminal n] word := by
  obtain ⟨p, hp, rfl⟩ := hrhs
  exact derives_nonterminal_iff.mpr ⟨p, hp, h⟩

/-- Some continuation of the word is a word of the grammar. -/
def Viable (g : Grammar T N) (word : List T) : Prop := ∃ rest, g.Generates (word ++ rest)

/-- The beginning of a viable word is viable. -/
theorem Viable.of_append {first second : List T} (h : g.Viable (first ++ second)) :
    g.Viable first := by
  obtain ⟨rest, h⟩ := h
  exact ⟨second ++ rest, by rwa [← List.append_assoc]⟩

/-- What a grammar must satisfy for a chart to decide it. -/
structure WellFormed (g : Grammar T N) : Prop where
  start_mem : g.start ∈ g.nonterminals
  lhs_eq : ∀ n ∈ g.nonterminals, ∀ p ∈ g.alternatives n, p.lhs = n
  nodup_number : ∀ n ∈ g.nonterminals, ((g.alternatives n).map (·.number)).Nodup
  mem_of_mem_rhs : ∀ p ∈ g.productions, ∀ n, .nonterminal n ∈ p.rhs → n ∈ g.nonterminals
  unused_of_rhs_nil : ∀ p ∈ g.productions, p.rhs = [] →
    ∀ q ∈ g.productions, .nonterminal p.lhs ∉ q.rhs
  productive : ∀ n ∈ g.nonterminals, ∃ word, g.Derives [.nonterminal n] word

namespace WellFormed

variable (hg : g.WellFormed)

include hg

/-- The productions of a grammar are the alternatives of its nonterminals. -/
theorem mem_productions_iff {p : Production T N} :
    p ∈ g.productions ↔ p.lhs ∈ g.nonterminals ∧ p ∈ g.alternatives p.lhs := by
  unfold productions
  rw [List.mem_flatMap]
  constructor
  · rintro ⟨n, hn, hp⟩
    obtain rfl := hg.lhs_eq n hn p hp
    exact ⟨hn, hp⟩
  · rintro ⟨hn, hp⟩
    exact ⟨p.lhs, hn, hp⟩

/-- An alternative of a nonterminal that occurs in a production is itself a production. -/
theorem mem_productions {p q : Production T N} {n : N} (hp : p ∈ g.productions)
    (hn : .nonterminal n ∈ p.rhs) (hq : q ∈ g.alternatives n) :
    q ∈ g.productions ∧ q.lhs = n := by
  have hmem := hg.mem_of_mem_rhs p hp n hn
  have hlhs := hg.lhs_eq n hmem q hq
  refine ⟨hg.mem_productions_iff.mpr ?_, hlhs⟩
  rw [hlhs]
  exact ⟨hmem, hq⟩

/-- The left-hand side and the number tell a production from all others. -/
theorem eq_of_number {p q : Production T N} (hp : p ∈ g.productions) (hq : q ∈ g.productions)
    (hlhs : p.lhs = q.lhs) (hnumber : p.number = q.number) : p = q := by
  obtain ⟨hmem, hp⟩ := hg.mem_productions_iff.mp hp
  have hq := (hg.mem_productions_iff.mp hq).2
  rw [← hlhs] at hq
  exact List.inj_on_of_nodup_map (hg.nodup_number p.lhs hmem) hp hq hnumber

/-- Symbols that occur in productions derive no empty word. -/
theorem ne_nil_of_derives {symbols : List (Symbol T N)} {word : List T}
    (h : g.Derives symbols word) (hne : symbols ≠ [])
    (hoccur : ∀ symbol ∈ symbols, ∃ p ∈ g.productions, symbol ∈ p.rhs) : word ≠ [] := by
  induction h with
  | nil => exact absurd rfl hne
  | terminal => exact List.cons_ne_nil _ _
  | @nonterminal n p symbols u v hp hrhs _ ih _ =>
    obtain ⟨q, hq, hn⟩ := hoccur _ List.mem_cons_self
    obtain ⟨hmem, rfl⟩ := hg.mem_productions hq hn hp
    have hrhs : p.rhs ≠ [] := fun hnil => hg.unused_of_rhs_nil p hmem hnil q hq hn
    have hu := ih hrhs fun symbol hs => ⟨p, hmem, hs⟩
    intro hnil
    exact hu (List.append_eq_nil_iff.mp hnil).1

/-- Whatever occurs in a production derives some word. -/
theorem exists_derives {p : Production T N} (hp : p ∈ g.productions)
    {symbols : List (Symbol T N)} (hsub : ∀ symbol ∈ symbols, symbol ∈ p.rhs) :
    ∃ word, g.Derives symbols word := by
  induction symbols with
  | nil => exact ⟨[], .nil⟩
  | cons symbol symbols ih =>
    obtain ⟨word, hword⟩ := ih fun s hs => hsub s (List.mem_cons_of_mem _ hs)
    cases symbol with
    | terminal t => exact ⟨t :: word, .terminal hword⟩
    | nonterminal n =>
      have hn := hg.mem_of_mem_rhs p hp n (hsub _ List.mem_cons_self)
      obtain ⟨u, hu⟩ := hg.productive n hn
      exact ⟨u ++ word, hu.append hword⟩

end WellFormed

/-- A rank of the nonterminals that falls wherever a production passes to one nonterminal. -/
structure UnitRank (g : Grammar T N) (rank : N → Nat) : Prop where
  lt_of_unit : ∀ p ∈ g.productions, ∀ n, p.rhs = [.nonterminal n] → rank n < rank p.lhs
  lt_dotCount : ∀ n ∈ g.nonterminals, rank n < g.dotCount

end Grammar

end CrateAnalysis
