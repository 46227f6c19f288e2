/-!
# Context-free grammars

A grammar gives each nonterminal a list of alternatives, the productions, which are numbered
in their order. A production that carries a label makes a node of that name in a syntax tree;
one without a label only groups symbols, and what it groups becomes part of the node around
it.

`Grammar.Derives` is the meaning of a grammar: it relates a list of symbols to the words of
terminals that they stand for. It mentions no order among the alternatives and no algorithm.
-/

set_option autoImplicit false

namespace CrateAnalysis

/-- A symbol on the right-hand side of a production. -/
inductive Symbol (T N : Type)
  | terminal (t : T)
  | nonterminal (n : N)
deriving DecidableEq

/-- One alternative of a nonterminal. -/
structure Production (T N : Type) where
  lhs : N
  number : Nat
  rhs : List (Symbol T N)
  label? : Option String
deriving DecidableEq

/-- A context-free grammar over the terminals `T` and the nonterminals `N`. -/
structure Grammar (T N : Type) where
  start : N
  nonterminals : List N
  alternatives : N → List (Production T N)

namespace Grammar

variable {T N : Type}

/-- A list of symbols derives a word when each terminal of the list stands for itself and
each nonterminal for a word that one of its alternatives derives. -/
inductive Derives (g : Grammar T N) : List (Symbol T N) → List T → Prop
  | nil : Derives g [] []
  | terminal {t : T} {symbols : List (Symbol T N)} {word : List T} :
      Derives g symbols word → Derives g (.terminal t :: symbols) (t :: word)
  | nonterminal {n : N} {p : Production T N} {symbols : List (Symbol T N)} {u v : List T} :
      p ∈ g.alternatives n → Derives g p.rhs u → Derives g symbols v →
      Derives g (.nonterminal n :: symbols) (u ++ v)

/-- The words of a grammar. -/
def Generates (g : Grammar T N) (word : List T) : Prop :=
  g.Derives [.nonterminal g.start] word

/-- The productions of the listed nonterminals. -/
def productions (g : Grammar T N) : List (Production T N) :=
  g.nonterminals.flatMap g.alternatives

/-- The number of places that a dot can take in the productions of a grammar. -/
def dotCount (g : Grammar T N) : Nat :=
  g.productions.foldr (fun p places => p.rhs.length + 1 + places) 0

end Grammar

end CrateAnalysis
