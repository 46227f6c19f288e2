import CrateAnalysis.Proofs.Chart.Columns

/-!
# What a chart recognises

The chart of a word reads the longest viable prefix of it. The terminals that its last column
awaits are exactly those that keep the prefix viable, and it holds a complete item for the start
exactly when what was read is a word of the grammar. Soundness is a property of single items;
completeness follows a derivation, along which the columns always have the item that matches the
next symbol.
-/

set_option autoImplicit false

namespace CrateAnalysis

namespace Grammar

variable {T N : Type} [DecidableEq T] [DecidableEq N] {g : Grammar T N} {word : List T}
  {columns : Nat → Column T N} {last : Nat}

omit [DecidableEq T] [DecidableEq N] in
/-- The first of the elements that come next, and what comes after it. -/
theorem of_cons_prefix_drop {α : Type} {a : α} {as xs : List α} {n : Nat}
    (h : a :: as <+: xs.drop n) : xs[n]? = some a ∧ as <+: xs.drop (n + 1) := by
  obtain ⟨rest, hrest⟩ := h
  constructor
  · rw [← Nat.add_zero n, ← List.getElem?_drop, ← hrest]
    rfl
  · rw [← List.drop_drop, ← hrest]
    exact ⟨rest, rfl⟩

omit [DecidableEq T] [DecidableEq N] in
/-- Of two lists that come next one after the other, the first comes next, and the second after it.
-/
theorem of_append_prefix_drop {α : Type} {as bs xs : List α} {n : Nat}
    (h : as ++ bs <+: xs.drop n) : as <+: xs.drop n ∧ bs <+: xs.drop (n + as.length) := by
  obtain ⟨rest, hrest⟩ := h
  constructor
  · exact ⟨bs ++ rest, by rw [← hrest, List.append_assoc]⟩
  · rw [← List.drop_drop, ← hrest, List.append_assoc, List.drop_left]
    exact List.prefix_append bs rest

omit [DecidableEq T] [DecidableEq N] in
/-- A list comes next at its own beginning. -/
theorem prefix_drop_of_eq_zero {α : Type} {xs : List α} {n : Nat} (h : n = 0) :
    xs <+: xs.drop n := by
  subst h
  exact List.prefix_rfl

omit [DecidableEq T] in
/-- An item moves over symbols that derive what comes next in the word. -/
theorem Charted.moves (hg : g.WellFormed) (h : g.Charted word columns last)
    {symbols : List (Symbol T N)} {u : List T} (hderives : g.Derives symbols u) {place : Nat}
    {item : Item T N} (hitem : item ∈ columns place)
    (hafter : symbols <+: item.production.rhs.drop item.matched)
    (hlater : u <+: word.drop place) (hlast : place + u.length ≤ last) :
    Holds (columns (place + u.length)) item.production (item.matched + symbols.length)
      item.origin := by
  induction hderives generalizing place item with
  | nil => exact ⟨item, hitem, rfl, rfl, rfl⟩
  | @terminal t symbols u hderives ih =>
    rw [List.length_cons] at hlast
    obtain ⟨ht, hlater⟩ := of_cons_prefix_drop hlater
    obtain ⟨hnext, hafter⟩ := of_cons_prefix_drop hafter
    obtain ⟨moved, hmoved, hproduction, hmatched, horigin⟩ :=
      h.scanned place (by omega) t ht item hitem hnext
    have hholds := ih hmoved (by rwa [hproduction, hmatched]) hlater (by omega)
    rw [hproduction, hmatched, horigin] at hholds
    have hplace : place + (u.length + 1) = place + 1 + u.length := by omega
    have hdot : item.matched + (symbols.length + 1) = item.matched + 1 + symbols.length := by omega
    rwa [List.length_cons, List.length_cons, hplace, hdot]
  | @nonterminal n p symbols u v hp hrhs hsymbols ihrhs ih =>
    rw [List.length_append] at hlast
    obtain ⟨hu, hv⟩ := of_append_prefix_drop hlater
    obtain ⟨hnext, hafter⟩ := of_cons_prefix_drop hafter
    have hsound := (h.emerging place (by omega)).sound item hitem
    obtain ⟨-, hlhs⟩ := hg.mem_productions hsound.mem (Item.rhs_of_next? hnext).1 hp
    -- the alternative is started here, moves to its end and takes the item with it
    obtain ⟨first, hfirst, rfl, hmatched, rfl⟩ :=
      h.predicted place (by omega) item hitem n hnext p hp
    obtain ⟨whole, hwhole, hproduction, hend, horigin⟩ :=
      ihrhs hfirst (prefix_drop_of_eq_zero hmatched) hu (by omega)
    have hcomplete : whole.next? = none := by
      rw [Item.next?, hproduction, hend, hmatched, Nat.zero_add]
      exact List.getElem?_eq_none (Nat.le_refl _)
    obtain ⟨moved, hmoved, hproduction', hmatched', horigin'⟩ :=
      h.completed _ (by omega) whole hwhole hcomplete item (by rwa [horigin])
        (by rwa [hproduction, hlhs])
    have hholds := ih hmoved (by rwa [hproduction', hmatched']) hv (by omega)
    rw [hproduction', hmatched', horigin'] at hholds
    have hdot : item.matched + (symbols.length + 1) = item.matched + 1 + symbols.length := by omega
    rwa [List.length_append, List.length_cons, ← Nat.add_assoc, hdot]

omit [DecidableEq T] in
/-- Along a derivation, some item awaits the terminal that comes after the last place. -/
theorem Charted.exists_awaiting (hg : g.WellFormed) (h : g.Charted word columns last)
    {symbols : List (Symbol T N)} {x : List T} (hderives : g.Derives symbols x) {u v : List T}
    {t : T} (hx : x = u ++ t :: v) {place : Nat} {item : Item T N} (hitem : item ∈ columns place)
    (hafter : symbols <+: item.production.rhs.drop item.matched)
    (hlater : u <+: word.drop place) (hlast : place + u.length = last) :
    ∃ i ∈ columns last, i.next? = some (.terminal t) := by
  induction hderives generalizing u v place item with
  | nil => exact absurd hx (by simp)
  | @terminal t' symbols x hderives ih =>
    obtain ⟨hnext, hafter⟩ := of_cons_prefix_drop hafter
    cases u with
    | nil =>
      obtain ⟨rfl, -⟩ := List.cons.inj hx
      obtain rfl : place = last := hlast
      exact ⟨item, hitem, hnext⟩
    | cons t'' u =>
      obtain ⟨rfl, htail⟩ := List.cons.inj hx
      rw [List.length_cons] at hlast
      obtain ⟨ht, hlater⟩ := of_cons_prefix_drop hlater
      obtain ⟨moved, hmoved, hproduction, hmatched, -⟩ :=
        h.scanned place (by omega) t' ht item hitem hnext
      exact ih htail hmoved (by rwa [hproduction, hmatched]) hlater (by omega)
  | @nonterminal n p symbols x y hp hrhs hsymbols ihrhs ih =>
    have hsplit : (∃ a, u = x ++ a ∧ y = a ++ t :: v) ∨ ∃ c, x = u ++ t :: c := by
      rcases List.append_eq_append_iff.mp hx with ⟨a, hu, hy⟩ | ⟨c, hx, hc⟩
      · exact .inl ⟨a, hu, hy⟩
      · cases c with
        | nil => exact .inl ⟨[], by rw [hx, List.append_nil, List.append_nil], hc.symm⟩
        | cons t' c =>
          obtain ⟨rfl, -⟩ := List.cons.inj hc
          exact .inr ⟨c, hx⟩
    rcases hsplit with ⟨a, rfl, hy⟩ | ⟨c, hx⟩
    · -- the item moves over the whole nonterminal
      rw [List.length_append] at hlast
      obtain ⟨hbefore, hlater⟩ := of_append_prefix_drop hlater
      have hwhole : g.Derives [.nonterminal n] x := derives_nonterminal_iff.mpr ⟨p, hp, hrhs⟩
      obtain ⟨moved, hmoved, hproduction, hmatched, -⟩ :=
        h.moves hg hwhole hitem ((List.prefix_append [_] symbols).trans hafter) hbefore (by omega)
      refine ih hy hmoved ?_ hlater (by omega)
      rw [hproduction, hmatched]
      exact (of_cons_prefix_drop hafter).2
    · obtain ⟨first, hfirst, rfl, hmatched, -⟩ :=
        h.predicted place (by omega) item hitem n (of_cons_prefix_drop hafter).1 p hp
      exact ihrhs hx hfirst (prefix_drop_of_eq_zero hmatched) hlater hlast

omit [DecidableEq T] in
/-- A terminal is awaited exactly if it keeps what was read viable. -/
theorem Charted.awaits_iff (hg : g.WellFormed) (h : g.Charted word columns last) {t : T} :
    (∃ item ∈ columns last, item.next? = some (.terminal t)) ↔
      g.Viable (word.take last ++ [t]) := by
  constructor
  · rintro ⟨item, hitem, hnext⟩
    have hsound := (h.emerging last (Nat.le_refl _)).sound item hitem
    obtain ⟨after, hafter⟩ := hg.exists_derives hsound.mem
      fun symbol hs => List.mem_of_mem_drop (i := item.matched + 1) hs
    have hviable := hsound.viable (t :: after) (by
      rw [(Item.rhs_of_next? hnext).2.2]
      exact .terminal hafter)
    rw [← List.singleton_append, ← List.append_assoc] at hviable
    exact hviable.of_append
  · rintro ⟨rest, hrest⟩
    obtain ⟨p, hp, hderives⟩ := derives_nonterminal_iff.mp hrest
    obtain ⟨first, hfirst, hproduction, hmatched, -⟩ := h.started p hp
    rw [List.append_assoc, List.singleton_append] at hderives
    refine h.exists_awaiting hg hderives rfl hfirst ?_ (List.take_prefix last word) ?_
    · rw [hproduction]
      exact prefix_drop_of_eq_zero hmatched
    · rw [Nat.zero_add, List.length_take, Nat.min_eq_left h.last_le]

omit [DecidableEq T] in
/-- The start is complete exactly if what was read is a word of the grammar. -/
theorem Charted.completes_start_iff (hg : g.WellFormed) (h : g.Charted word columns last) :
    (∃ item ∈ columns last, item.completes g.start 0 = true) ↔ g.Generates (word.take last) := by
  constructor
  · rintro ⟨item, hitem, hcompletes⟩
    obtain ⟨horigin, hnext, hlhs⟩ := Item.completes_iff.mp hcompletes
    have hderives := ((h.emerging last (Nat.le_refl _)).sound item hitem).derives_lhs hg hnext
    rwa [hlhs, horigin, stretch, List.drop_zero] at hderives
  · intro hgenerates
    obtain ⟨p, hp, hderives⟩ := derives_nonterminal_iff.mp hgenerates
    obtain ⟨first, hfirst, hproduction, hmatched, horigin⟩ := h.started p hp
    have hlength : (word.take last).length = last := by
      rw [List.length_take, Nat.min_eq_left h.last_le]
    obtain ⟨whole, hwhole, hproduction', hmatched', horigin'⟩ :=
      h.moves hg hderives hfirst
        (by rw [hproduction]; exact prefix_drop_of_eq_zero hmatched)
        (List.take_prefix last word) (by rw [hlength]; omega)
    rw [hlength, Nat.zero_add] at hwhole
    refine ⟨whole, hwhole, Item.completes_iff.mpr ⟨horigin'.trans horigin, ?_, ?_⟩⟩
    · rw [Item.next?, hproduction', hmatched', hproduction, hmatched, Nat.zero_add]
      exact List.getElem?_eq_none (Nat.le_refl _)
    · rw [hproduction', hproduction]
      exact hg.lhs_eq _ hg.start_mem p hp

omit [DecidableEq T] in
/-- A word is viable up to every place whose column has an item. -/
theorem Charted.viable (hg : g.WellFormed) (h : g.Charted word columns last)
    (hne : columns last ≠ []) : g.Viable (word.take last) := by
  obtain ⟨item, hitem⟩ := List.exists_mem_of_ne_nil _ hne
  have hsound := (h.emerging last (Nat.le_refl _)).sound item hitem
  obtain ⟨after, hafter⟩ := hg.exists_derives hsound.mem
    fun symbol hs => List.mem_of_mem_drop (i := item.matched) hs
  exact (hsound.viable after hafter).of_append

/-! ## The chart of a word -/

/-- The part of a word that the chart has reached is viable. -/
theorem viable_take_reached (hg : g.WellFormed) (word : List T) :
    g.Viable (word.take (Chart.reached (g.chart word))) :=
  (charted_chart hg word).1.viable hg ((charted_chart hg word).2.1 _ (Nat.le_refl _))

/-- With the terminal at which the chart stops, the prefix is not viable any more. -/
theorem not_viable_take_succ_reached (hg : g.WellFormed) {word : List T} {t : T}
    (ht : word[Chart.reached (g.chart word)]? = some t) :
    ¬ g.Viable (word.take (Chart.reached (g.chart word)) ++ [t]) := by
  rw [← (charted_chart hg word).1.awaits_iff hg]
  rintro ⟨item, hitem, hnext⟩
  exact (charted_chart hg word).2.2 t ht item hitem hnext

/-- The terminals that a chart expects are those that keep what it read viable. -/
theorem mem_expected_iff (hg : g.WellFormed) {word : List T} {t : T} :
    t ∈ Chart.expected (g.chart word) ↔
      g.Viable (word.take (Chart.reached (g.chart word)) ++ [t]) := by
  rw [← (charted_chart hg word).1.awaits_iff hg, Chart.expected, List.mem_filterMap]
  refine exists_congr fun item => and_congr_right fun _ => ?_
  unfold Item.nextTerminal?
  split
  next t' hnext => rw [hnext, Option.some.injEq, Option.some.injEq, Symbol.terminal.injEq]
  next hnext =>
    constructor
    · rintro ⟨⟩
    · intro heq
      exact absurd heq (hnext t)

end Grammar

end CrateAnalysis
