import CrateAnalysis.Chart.Basic
import CrateAnalysis.Proofs.Grammar.Derivations

/-!
# What an item says

An item at a place of a word says two things: the symbols it has matched derive the stretch of
the word from its origin to that place, and whatever its remaining symbols derive can follow
there in some word of the grammar. `Item.Sound` states both. It holds of the items that start the
grammar, and starting an awaited nonterminal or matching one more symbol keeps it.

`Item.Justified` records how an item was found: it continues an item of the column at its split,
and what it has matched since is the terminal there or a complete item from there on. Trees are
read off these facts.
-/

set_option autoImplicit false

namespace CrateAnalysis

variable {T N : Type}

/-- The terminals of a word between two places. -/
def stretch (word : List T) (first last : Nat) : List T := (word.take last).drop first

/-- Nothing stands between a place and itself. -/
@[simp]
theorem stretch_self (word : List T) (place : Nat) : stretch word place place = [] := by
  unfold stretch
  exact List.drop_eq_nil_of_le (List.length_take_le _ _)

/-- A stretch is as long as its places are apart. -/
theorem length_stretch {word : List T} {last : Nat} (first : Nat) (h : last ≤ word.length) :
    (stretch word first last).length = last - first := by
  simp [stretch, Nat.min_eq_left h]

/-- A word up to a place is continued by the stretch from there on. -/
theorem take_append_stretch (word : List T) {first last : Nat} (h : first ≤ last) :
    word.take first ++ stretch word first last = word.take last := by
  have htake : word.take first = (word.take last).take first := by
    rw [List.take_take, Nat.min_eq_left h]
  rw [htake, stretch, List.take_append_drop]

/-- Two stretches that meet are one. -/
theorem stretch_append (word : List T) {first middle last : Nat} (h : first ≤ middle)
    (h' : middle ≤ last) :
    stretch word first middle ++ stretch word middle last = stretch word first last := by
  by_cases hlen : first ≤ word.length
  · have hle : first ≤ (word.take middle).length := by
      rw [List.length_take]
      omega
    rw [stretch, ← List.drop_append_of_le_length hle, take_append_stretch word h', stretch]
  · have hnil : ∀ j k, first ≤ j → stretch word j k = [] := by
      intro j k hj
      apply List.drop_eq_nil_of_le
      rw [List.length_take]
      omega
    rw [hnil first middle (Nat.le_refl _), hnil middle last h, hnil first last (Nat.le_refl _),
      List.nil_append]

/-- The stretch from one place to the next is a single terminal. -/
theorem stretch_succ {word : List T} {place : Nat} {t : T} (h : word[place]? = some t) :
    stretch word place (place + 1) = [t] := by
  obtain ⟨hlt, rfl⟩ := List.getElem?_eq_some_iff.mp h
  rw [stretch, List.take_add_one, h, List.drop_append_of_le_length (by simp; omega)]
  simp

/-- A column has an item for a production with so many symbols matched from an origin on. -/
def Holds (column : Column T N) (p : Production T N) (matched origin : Nat) : Prop :=
  ∃ item ∈ column, item.production = p ∧ item.matched = matched ∧ item.origin = origin

namespace Item

/-- What tells the items of a column apart: all but the place of the split. -/
def key (item : Item T N) : N × Nat × Nat × Nat :=
  (item.production.lhs, item.production.number, item.matched, item.origin)

/-- Items count as the same if their keys agree. -/
theorem same_iff [DecidableEq N] {a b : Item T N} : a.same b = true ↔ a.key = b.key := by
  simp only [same, key, Bool.and_eq_true, decide_eq_true_eq, Prod.mk.injEq]
  tauto

/-- What completes a nonterminal from an origin on is an item of one of its productions that began
there and awaits nothing more. -/
theorem completes_iff [DecidableEq N] {item : Item T N} {n : N} {origin : Nat} :
    item.completes n origin = true ↔
      item.origin = origin ∧ item.next? = none ∧ item.production.lhs = n := by
  simp only [completes, Bool.and_eq_true, decide_eq_true_eq, Option.isNone_iff_eq_none, and_assoc]

/-- Items that move over one symbol are told apart as before. -/
theorem key_advance_eq_iff {a b : Item T N} {split : Nat} :
    (a.advance split).key = (b.advance split).key ↔ a.key = b.key := by
  simp [key, advance]

/-! ## The place of the dot -/

/-- The symbols around the dot of an item that awaits a symbol. -/
theorem rhs_of_next? {item : Item T N} {symbol : Symbol T N} (h : item.next? = some symbol) :
    symbol ∈ item.production.rhs ∧
      item.production.rhs.take (item.matched + 1) =
        item.production.rhs.take item.matched ++ [symbol] ∧
      item.production.rhs.drop item.matched =
        symbol :: item.production.rhs.drop (item.matched + 1) := by
  unfold next? at h
  obtain ⟨hlt, rfl⟩ := List.getElem?_eq_some_iff.mp h
  refine ⟨List.getElem_mem hlt, ?_, List.drop_eq_getElem_cons hlt⟩
  rw [List.take_add_one, h, Option.toList_some]

/-- An item that awaits nothing has its whole production behind it. -/
theorem length_le_of_next?_eq_none {item : Item T N} (h : item.next? = none) :
    item.production.rhs.length ≤ item.matched :=
  List.getElem?_eq_none_iff.mp h

/-- What an item says about a place of a word. -/
structure Sound (g : Grammar T N) (word : List T) (place : Nat) (item : Item T N) : Prop where
  mem : item.production ∈ g.productions
  matched_le : item.matched ≤ item.production.rhs.length
  origin_le : item.origin ≤ place
  derives : g.Derives (item.production.rhs.take item.matched) (stretch word item.origin place)
  viable : ∀ rest, g.Derives (item.production.rhs.drop item.matched) rest →
    g.Viable (word.take place ++ rest)

variable {g : Grammar T N} {word : List T} {place : Nat} {item : Item T N}

/-- The items that start the grammar are sound before the first terminal. -/
theorem sound_start (hg : g.WellFormed) {p : Production T N} (hp : p ∈ g.alternatives g.start) :
    (start 0 p).Sound g word 0 where
  mem := by
    rw [start, hg.mem_productions_iff, hg.lhs_eq g.start hg.start_mem p hp]
    exact ⟨hg.start_mem, hp⟩
  matched_le := Nat.zero_le _
  origin_le := Nat.le_refl _
  derives := by
    rw [start, stretch_self]
    exact .nil
  viable := by
    intro rest hrest
    refine ⟨[], ?_⟩
    rw [List.take_zero, List.nil_append, List.append_nil]
    exact Grammar.derives_nonterminal_iff.mpr ⟨p, hp, hrest⟩

/-- Starting an alternative of an awaited nonterminal. -/
theorem Sound.predict (hg : g.WellFormed) (h : item.Sound g word place) {n : N}
    (hnext : item.next? = some (.nonterminal n)) {p : Production T N}
    (hp : p ∈ g.alternatives n) : (start place p).Sound g word place where
  mem := (hg.mem_productions h.mem (rhs_of_next? hnext).1 hp).1
  matched_le := Nat.zero_le _
  origin_le := Nat.le_refl _
  derives := by
    rw [start, stretch_self]
    exact .nil
  viable := by
    intro rest hrest
    -- what the waiting item matches after the nonterminal completes the continuation
    obtain ⟨after, hafter⟩ := hg.exists_derives h.mem
      fun symbol hs => List.mem_of_mem_drop (i := item.matched + 1) hs
    have hitem : g.Derives (item.production.rhs.drop item.matched) (rest ++ after) := by
      rw [(rhs_of_next? hnext).2.2]
      exact .nonterminal hp hrest hafter
    have hviable := h.viable _ hitem
    rw [← List.append_assoc] at hviable
    exact hviable.of_append

/-- Matching one more symbol, which derives the stretch since the item's place. -/
theorem Sound.match_next {later : Nat} (h : item.Sound g word place) {symbol : Symbol T N}
    (hnext : item.next? = some symbol) (hle : place ≤ later)
    (hderives : g.Derives [symbol] (stretch word place later)) :
    (item.advance place).Sound g word later where
  mem := h.mem
  matched_le := (List.getElem?_eq_some_iff.mp hnext).1
  origin_le := Nat.le_trans h.origin_le hle
  derives := by
    change g.Derives (item.production.rhs.take (item.matched + 1)) (stretch word item.origin later)
    rw [(rhs_of_next? hnext).2.1, ← stretch_append word h.origin_le hle]
    exact h.derives.append hderives
  viable := by
    intro rest hrest
    have hitem : g.Derives (item.production.rhs.drop item.matched)
        (stretch word place later ++ rest) := by
      rw [(rhs_of_next? hnext).2.2]
      exact hderives.append hrest
    have hviable := h.viable _ hitem
    rwa [← List.append_assoc, take_append_stretch word hle] at hviable

/-- The nonterminal of a complete item derives the stretch since its origin. -/
theorem Sound.derives_lhs (hg : g.WellFormed) (h : item.Sound g word place)
    (hnext : item.next? = none) :
    g.Derives [.nonterminal item.production.lhs] (stretch word item.origin place) := by
  have hderives := h.derives
  rw [List.take_of_length_le (length_le_of_next?_eq_none hnext)] at hderives
  exact Grammar.derives_nonterminal_iff.mpr
    ⟨_, (hg.mem_productions_iff.mp h.mem).2, hderives⟩

/-- An item that has matched something began earlier, for what it has matched is not empty. -/
theorem Sound.origin_lt (hg : g.WellFormed) (h : item.Sound g word place)
    (hmatched : item.matched ≠ 0) : item.origin < place := by
  refine Nat.lt_of_le_of_ne h.origin_le fun heq => ?_
  have hderives := h.derives
  rw [heq, stretch_self] at hderives
  refine hg.ne_nil_of_derives hderives ?_ ?_ rfl
  · intro hnil
    rcases List.take_eq_nil_iff.mp hnil with hzero | hempty
    · exact hmatched hzero
    · have hle := h.matched_le
      rw [hempty] at hle
      exact hmatched (Nat.le_zero.mp hle)
  · intro symbol hs
    exact ⟨_, h.mem, List.mem_of_mem_take hs⟩

/-- An item that has matched nothing begins where it stands. -/
theorem Sound.origin_eq (h : item.Sound g word place) (hplace : place ≤ word.length)
    (hmatched : item.matched = 0) : item.origin = place := by
  have hderives := h.derives
  rw [hmatched, List.take_zero] at hderives
  have hlen := length_stretch item.origin hplace
  have horigin := h.origin_le
  cases hs : stretch word item.origin place with
  | nil =>
    rw [hs, List.length_nil] at hlen
    omega
  | cons t rest =>
    rw [hs] at hderives
    cases hderives

/-- A complete item whose nonterminal occurs in a production began earlier. -/
theorem Sound.origin_lt_of_used (hg : g.WellFormed) (h : item.Sound g word place)
    (hnext : item.next? = none) {p : Production T N} (hp : p ∈ g.productions)
    (hused : .nonterminal item.production.lhs ∈ p.rhs) : item.origin < place := by
  refine h.origin_lt hg fun hzero => ?_
  have hlen := length_le_of_next?_eq_none hnext
  rw [hzero] at hlen
  exact hg.unused_of_rhs_nil _ h.mem (List.length_eq_zero_iff.mp (Nat.le_zero.mp hlen)) p hp hused

/-- How an item was found: its last symbol begins at the split, where the column has the item
without that symbol, and the symbol is the terminal there or a nonterminal that a complete item
of the column derives from there on. -/
def Justified [DecidableEq N] (word : List T) (columns : Nat → Column T N)
    (column : Column T N) (place : Nat) (item : Item T N) : Prop :=
  ∀ m, item.matched = m + 1 → Holds (columns item.split) item.production m item.origin ∧
    ((∃ t, item.production.rhs[m]? = some (.terminal t) ∧ word[item.split]? = some t ∧
        place = item.split + 1) ∨
      ∃ n, item.production.rhs[m]? = some (.nonterminal n) ∧ item.split < place ∧
        ∃ whole ∈ column, whole.completes n item.split = true)

/-- An item stays justified while the column grows. -/
theorem Justified.mono [DecidableEq N] {columns : Nat → Column T N} {column larger : Column T N}
    (h : item.Justified word columns column place) (hsub : ∀ i ∈ column, i ∈ larger) :
    item.Justified word columns larger place := by
  intro m hm
  obtain ⟨hholds, hterminal | ⟨n, hn, hlt, whole, hwhole, hcompletes⟩⟩ := h m hm
  · exact ⟨hholds, .inl hterminal⟩
  · exact ⟨hholds, .inr ⟨n, hn, hlt, whole, hsub whole hwhole, hcompletes⟩⟩

end Item

end CrateAnalysis
