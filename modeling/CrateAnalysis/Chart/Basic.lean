import CrateAnalysis.Grammar.Basic

/-!
# Charts

A chart recognises a word of terminals from left to right. It has one column for each place
between two terminals, and a column holds items: a production, how many symbols of its
right-hand side are matched, and the place where the match began. `saturate` closes a column:
an item that awaits a nonterminal starts the alternatives of that nonterminal, and an item
that is complete moves on those items of the column of its origin that await it. `scan` moves
the items of a column over the next terminal. A word is read as far as some item awaits its
next terminal, so the terminals that the last column awaits are those that could follow.

A column lists its items with the latest at the head, holds no item twice, and always works
on the latest item first. An item also remembers where the last symbol that it matched
begins, for the first way in which the item was found; a tree is later read off these places.

A column is closed in one pass, so an alternative that derives the empty word must not occur
inside a production.
-/

set_option autoImplicit false

namespace CrateAnalysis

/-- A production that is matched up to some symbol. -/
structure Item (T N : Type) where
  production : Production T N
  matched : Nat
  origin : Nat
  split : Nat

namespace Item

variable {T N : Type}

/-- The production with nothing matched yet. -/
def start (here : Nat) (production : Production T N) : Item T N :=
  ⟨production, 0, here, here⟩

/-- The symbol that the item awaits; a complete item awaits none. -/
def next? (item : Item T N) : Option (Symbol T N) := item.production.rhs[item.matched]?

/-- The terminal that the item awaits. -/
def nextTerminal? (item : Item T N) : Option T :=
  match item.next? with
  | some (.terminal t) => some t
  | _ => none

/-- The item after one more symbol, which begins at `split`. -/
def advance (item : Item T N) (split : Nat) : Item T N :=
  { item with matched := item.matched + 1, split := split }

variable [DecidableEq T] [DecidableEq N]

/-- Whether the item awaits this symbol. -/
def awaits (item : Item T N) (symbol : Symbol T N) : Bool := item.next? = some symbol

/-- Whether the two items are one, however they were found. -/
def same (a b : Item T N) : Bool :=
  a.origin = b.origin && a.matched = b.matched && a.production.number = b.production.number &&
    a.production.lhs = b.production.lhs

/-- Whether the item completes the nonterminal `n` from the place `origin` on. -/
def completes (item : Item T N) (n : N) (origin : Nat) : Bool :=
  item.origin = origin && item.next?.isNone && item.production.lhs = n

end Item

/-- The items at one place, the latest at the head. -/
abbrev Column (T N : Type) := List (Item T N)

/-- The columns of a word, one for each place that was reached. -/
abbrev Chart (T N : Type) := Array (Column T N)

namespace Grammar

variable {T N : Type} [DecidableEq T] [DecidableEq N]

/-- What an item calls for in the column that follows `chart`, the latest at the head. -/
def consequences (g : Grammar T N) (chart : Chart T N) (column : Column T N)
    (item : Item T N) : Column T N :=
  match item.next? with
  | none =>
    let source := chart[item.origin]?.getD column
    (source.filter (·.awaits (.nonterminal item.production.lhs))).map (·.advance item.origin)
  | some (.nonterminal n) => (g.alternatives n).reverse.map (Item.start chart.size)
  | some (.terminal _) => []

/-- Adds what the pending items of a column call for until none is pending. Each item of the
column is pending once, so as many rounds as a column can have items are enough. -/
def saturate (g : Grammar T N) (chart : Chart T N) :
    (rounds : Nat) → (pending column : Column T N) → Column T N
  | 0, _, column => column
  | _ + 1, [], column => column
  | rounds + 1, item :: pending, column =>
    let fresh := (g.consequences chart column item).filter fun i => !column.any i.same
    g.saturate chart rounds (fresh ++ pending) (fresh ++ column)

/-- The closed column that follows `chart` and begins with the items of `kernel`. -/
def close (g : Grammar T N) (chart : Chart T N) (kernel : Column T N) : Column T N :=
  g.saturate chart (g.dotCount * (chart.size + 1) + 1) kernel kernel

/-- The column before the first terminal. -/
def firstColumn (g : Grammar T N) : Column T N :=
  g.close #[] ((g.alternatives g.start).reverse.map (Item.start 0))

/-- The items of a column after the terminal `t`, which begins at `here`. -/
def scan (column : Column T N) (here : Nat) (t : T) : Column T N :=
  (column.filter (·.awaits (.terminal t))).map (·.advance here)

/-- Adds a column for each terminal of the word, up to the first that nothing awaits. -/
def extend (g : Grammar T N) (chart : Chart T N) (column : Column T N) :
    List T → Chart T N
  | [] => chart.push column
  | t :: word =>
    let earlier := chart.push column
    match scan column chart.size t with
    | [] => earlier
    | kernel => g.extend earlier (g.close earlier kernel) word

/-- The chart of a word: one column more than terminals were read. -/
def chart (g : Grammar T N) (word : List T) : Chart T N :=
  g.extend #[] g.firstColumn word

end Grammar

namespace Chart

variable {T N : Type}

/-- The column of a place; outside the chart it is empty. -/
def column (chart : Chart T N) (place : Nat) : Column T N := chart[place]?.getD []

/-- How many terminals were read. -/
def reached (chart : Chart T N) : Nat := chart.size - 1

/-- The terminals that may follow what was read; one may be listed several times. -/
def expected (chart : Chart T N) : List T :=
  (Chart.column chart (reached chart)).filterMap Item.nextTerminal?

variable [DecidableEq T] [DecidableEq N]

/-- The first alternative of `n` among those that match from `origin` to the place of the
column. -/
def best? (column : Column T N) (n : N) (origin : Nat) : Option (Item T N) :=
  (column.filter (·.completes n origin)).foldl
    (fun best item =>
      match best with
      | none => some item
      | some b => if item.production.number < b.production.number then some item else best)
    none

/-- Whether what was read is a word of the grammar. -/
def accepts (g : Grammar T N) (chart : Chart T N) : Bool :=
  (Chart.column chart (reached chart)).any (·.completes g.start 0)

end Chart

end CrateAnalysis
