import CrateAnalysis.Proofs.Chart.Item

/-!
# Closing a column

`Grammar.saturate` works through the pending items of a column. Each round keeps three facts
about the column, together called `Emerging`: its items are sound, no two of them are one, and
each is justified. Since a column of a place holds at most as many items as there are places for
the dot and the origin, the rounds that `Grammar.close` allows are enough, and in the end nothing
that an item calls for is missing.

An item that is complete at its own origin would call for more whenever the column grows. In a
well-formed grammar nothing waits for such an item.
-/

set_option autoImplicit false

namespace CrateAnalysis

namespace Grammar

variable {T N : Type} [DecidableEq T] [DecidableEq N] {g : Grammar T N} {word : List T}
  {columns : Nat → Column T N} {place : Nat} {chart : Chart T N} {column : Column T N}
  {item : Item T N}

/-- The chart holds the columns before a place, and these are sound and without repetition. -/
structure Precedes (g : Grammar T N) (word : List T) (columns : Nat → Column T N) (place : Nat)
    (chart : Chart T N) : Prop where
  size_eq : chart.size = place
  getElem?_eq : ∀ j < place, chart[j]? = some (columns j)
  sound : ∀ j < place, ∀ item ∈ columns j, item.Sound g word j
  nodup : ∀ j < place, ((columns j).map Item.key).Nodup

omit [DecidableEq T] [DecidableEq N] in
/-- The column that an item began in: an earlier one, or the one that is being made. -/
theorem Precedes.getD_eq (h : g.Precedes word columns place chart) (origin : Nat)
    (column : Column T N) :
    chart[origin]?.getD column = if origin < place then columns origin else column := by
  by_cases hlt : origin < place
  · rw [if_pos hlt, h.getElem?_eq _ hlt, Option.getD_some]
  · have hnone : chart[origin]? = none := by
      rw [Array.getElem?_eq_none_iff, h.size_eq]
      exact Nat.le_of_not_lt hlt
    rw [if_neg hlt, hnone, Option.getD_none]

/-- What every round of the saturation keeps. -/
structure Emerging (g : Grammar T N) (word : List T) (columns : Nat → Column T N) (place : Nat)
    (column : Column T N) : Prop where
  sound : ∀ item ∈ column, item.Sound g word place
  nodup : (column.map Item.key).Nodup
  justified : ∀ item ∈ column, item.Justified word columns column place

/-- An item calls for items that waited for it, moved on, or for alternatives to start. -/
theorem mem_consequences {new : Item T N} (h : new ∈ g.consequences chart column item) :
    (item.next? = none ∧ ∃ waiting ∈ chart[item.origin]?.getD column,
      waiting.next? = some (.nonterminal item.production.lhs) ∧
        new = waiting.advance item.origin) ∨
    ∃ n, item.next? = some (.nonterminal n) ∧ ∃ p ∈ g.alternatives n,
      new = Item.start chart.size p := by
  unfold consequences at h
  split at h
  next hnext =>
    obtain ⟨waiting, hwaiting, rfl⟩ := List.mem_map.mp h
    obtain ⟨hmem, hawaits⟩ := List.mem_filter.mp hwaiting
    exact .inl ⟨hnext, waiting, hmem, of_decide_eq_true hawaits, rfl⟩
  next n hnext =>
    obtain ⟨p, hp, rfl⟩ := List.mem_map.mp h
    exact .inr ⟨n, hnext, p, List.mem_reverse.mp hp, rfl⟩
  next => exact absurd h (List.not_mem_nil)

omit [DecidableEq T] [DecidableEq N] in
/-- An item that waited for a complete one stands in an earlier column. -/
theorem mem_column_of_waiting (hg : g.WellFormed) (hchart : g.Precedes word columns place chart)
    (hsound : ∀ i ∈ column, i.Sound g word place) (hitem : item.Sound g word place)
    (hnext : item.next? = none) {waiting : Item T N}
    (hmem : waiting ∈ chart[item.origin]?.getD column)
    (hwaiting : waiting.next? = some (.nonterminal item.production.lhs)) :
    item.origin < place ∧ waiting ∈ columns item.origin := by
  rw [hchart.getD_eq] at hmem
  by_cases hlt : item.origin < place
  · rw [if_pos hlt] at hmem
    exact ⟨hlt, hmem⟩
  · rw [if_neg hlt] at hmem
    have hused := (Item.rhs_of_next? hwaiting).1
    exact absurd (hitem.origin_lt_of_used hg hnext (hsound _ hmem).mem hused) hlt

/-- The items that an item calls for do not depend on the column it stands in. -/
theorem consequences_eq_nil (hg : g.WellFormed) (hchart : g.Precedes word columns place chart)
    (hsound : ∀ i ∈ column, i.Sound g word place) (hitem : item ∈ column) :
    g.consequences chart column item = g.consequences chart [] item := by
  unfold consequences
  split
  next hnext =>
    dsimp only
    rw [hchart.getD_eq, hchart.getD_eq]
    by_cases hlt : item.origin < place
    · rw [if_pos hlt, if_pos hlt]
    · have hempty : column.filter (·.awaits (.nonterminal item.production.lhs)) = [] := by
        rw [List.filter_eq_nil_iff]
        intro waiting hmem hawaits
        refine hlt (mem_column_of_waiting hg hchart hsound (hsound item hitem) hnext ?_
          (of_decide_eq_true hawaits)).1
        rwa [hchart.getD_eq, if_neg hlt]
      rw [if_neg hlt, if_neg hlt, hempty, List.filter_nil]
  next => rfl
  next => rfl

/-- What an item calls for has no key twice. -/
theorem nodup_consequences (hg : g.WellFormed) (hchart : g.Precedes word columns place chart)
    (hcolumn : g.Emerging word columns place column) (hitem : item ∈ column) :
    ((g.consequences chart column item).map Item.key).Nodup := by
  unfold consequences
  split
  next hnext =>
    have hsource : ((chart[item.origin]?.getD column).map Item.key).Nodup := by
      rw [hchart.getD_eq]
      split
      next hlt => exact hchart.nodup _ hlt
      next => exact hcolumn.nodup
    rw [List.Nodup, List.pairwise_map, List.pairwise_map]
    refine (List.pairwise_map.mp hsource).filter _ |>.imp ?_
    intro a b hne heq
    exact hne (Item.key_advance_eq_iff.mp heq)
  next n hnext =>
    have hitem := hcolumn.sound item hitem
    have hn := hg.mem_of_mem_rhs _ hitem.mem n (Item.rhs_of_next? hnext).1
    rw [List.Nodup, List.pairwise_map, List.pairwise_map, List.pairwise_reverse]
    refine (List.pairwise_map.mp (hg.nodup_number n hn)).imp ?_
    intro a b hne heq
    exact hne (congrArg (·.2.1) heq).symm
  next => exact List.nodup_nil

/-- The items that one more round adds. -/
def fresh (g : Grammar T N) (chart : Chart T N) (column : Column T N) (item : Item T N) :
    Column T N :=
  (g.consequences chart column item).filter fun i => !column.any i.same

/-- What a round adds differs in its key from all that was there. -/
theorem key_ne_of_mem_fresh {new old : Item T N} (hnew : new ∈ g.fresh chart column item)
    (hold : old ∈ column) : new.key ≠ old.key := by
  have hfresh := (List.mem_filter.mp hnew).2
  rw [Bool.not_eq_true', List.any_eq_false] at hfresh
  intro heq
  exact hfresh old hold (Item.same_iff.mpr heq)

/-- What an item of a column calls for is sound. -/
theorem sound_of_mem_consequences (hg : g.WellFormed)
    (hchart : g.Precedes word columns place chart) (hsound : ∀ i ∈ column, i.Sound g word place)
    (hitem : item ∈ column) {new : Item T N} (hnew : new ∈ g.consequences chart column item) :
    new.Sound g word place := by
  have hitem := hsound item hitem
  rcases mem_consequences hnew with
    ⟨hnext, waiting, hmem, hwaiting, rfl⟩ | ⟨n, hnext, p, hp, rfl⟩
  · obtain ⟨hlt, hmem⟩ := mem_column_of_waiting hg hchart hsound hitem hnext hmem hwaiting
    have hearlier := hchart.sound _ hlt waiting hmem
    exact hearlier.match_next hwaiting hitem.origin_le (hitem.derives_lhs hg hnext)
  · rw [hchart.size_eq]
    exact hitem.predict hg hnext hp

/-- What an item of a column calls for is justified: by the item itself if it is complete. -/
theorem justified_of_mem_consequences (hg : g.WellFormed)
    (hchart : g.Precedes word columns place chart) (hsound : ∀ i ∈ column, i.Sound g word place)
    (hitem : item ∈ column) {new : Item T N} (hnew : new ∈ g.consequences chart column item) :
    new.Justified word columns column place := by
  rcases mem_consequences hnew with
    ⟨hnext, waiting, hmem, hwaiting, rfl⟩ | ⟨n, hnext, p, hp, rfl⟩
  · obtain ⟨hlt, hmem⟩ :=
      mem_column_of_waiting hg hchart hsound (hsound item hitem) hnext hmem hwaiting
    intro m hm
    obtain rfl : waiting.matched = m := Nat.succ.inj hm
    have hcompletes : item.completes item.production.lhs item.origin = true :=
      Item.completes_iff.mpr ⟨rfl, hnext, rfl⟩
    exact ⟨⟨waiting, hmem, rfl, rfl, rfl⟩, .inr ⟨_, hwaiting, hlt, item, hitem, hcompletes⟩⟩
  · intro m hm
    cases hm

/-- A round keeps all that is known of the column. -/
theorem Emerging.round (hg : g.WellFormed) (hchart : g.Precedes word columns place chart)
    (hcolumn : g.Emerging word columns place column) (hitem : item ∈ column) :
    g.Emerging word columns place (g.fresh chart column item ++ column) := by
  have hsub : ∀ i ∈ column, i ∈ g.fresh chart column item ++ column :=
    fun i hi => List.mem_append_right _ hi
  refine ⟨?_, ?_, ?_⟩
  · intro new hnew
    rcases List.mem_append.mp hnew with hnew | hold
    · exact sound_of_mem_consequences hg hchart hcolumn.sound hitem (List.mem_filter.mp hnew).1
    · exact hcolumn.sound new hold
  · rw [List.map_append, List.nodup_append]
    have hfresh := List.pairwise_map.mp (nodup_consequences hg hchart hcolumn hitem)
    refine ⟨List.pairwise_map.mpr (hfresh.filter _), hcolumn.nodup, ?_⟩
    intro a ha b hb
    obtain ⟨new, hnew, rfl⟩ := List.mem_map.mp ha
    obtain ⟨old, hold, rfl⟩ := List.mem_map.mp hb
    exact key_ne_of_mem_fresh hnew hold
  · intro new hnew
    rcases List.mem_append.mp hnew with hnew | hold
    · have hjustified :=
        justified_of_mem_consequences hg hchart hcolumn.sound hitem (List.mem_filter.mp hnew).1
      exact hjustified.mono hsub
    · exact (hcolumn.justified new hold).mono hsub

/-! ## The rounds are enough -/

/-- The keys that an item of a column can have: a production, a place of the dot in it, and an
origin that is not after the column. -/
def itemKeys (g : Grammar T N) (place : Nat) : List (N × Nat × Nat × Nat) :=
  g.productions.flatMap fun p =>
    (List.range (p.rhs.length + 1)).flatMap fun matched =>
      (List.range (place + 1)).map fun origin => (p.lhs, p.number, matched, origin)

omit [DecidableEq T] [DecidableEq N] in
/-- There are as many keys as productions have places for the dot, times the origins. -/
theorem length_itemKeys (g : Grammar T N) (place : Nat) :
    (g.itemKeys place).length = g.dotCount * (place + 1) := by
  have hdots : ∀ (p : Production T N) (dots : List Nat),
      (dots.flatMap fun matched =>
        (List.range (place + 1)).map fun origin => (p.lhs, p.number, matched, origin)).length =
      dots.length * (place + 1) := by
    intro p dots
    induction dots with
    | nil => rw [List.flatMap_nil, List.length_nil, List.length_nil, Nat.zero_mul]
    | cons dot dots ih =>
      rw [List.flatMap_cons, List.length_append, ih, List.length_map, List.length_range,
        List.length_cons, Nat.succ_mul, Nat.add_comm]
  unfold itemKeys dotCount
  induction g.productions with
  | nil => rw [List.flatMap_nil, List.length_nil, List.foldr_nil, Nat.zero_mul]
  | cons p ps ih =>
    rw [List.flatMap_cons, List.length_append, ih, hdots, List.length_range, List.foldr_cons,
      Nat.add_mul (p.rhs.length + 1)]

omit [DecidableEq T] in
/-- A column without repetition has no more items than there are keys. -/
theorem Emerging.length_le (hcolumn : g.Emerging word columns place column) :
    column.length ≤ g.dotCount * (place + 1) := by
  have hsub : column.map Item.key ⊆ g.itemKeys place := by
    intro k hk
    obtain ⟨i, hi, rfl⟩ := List.mem_map.mp hk
    have hsound := hcolumn.sound i hi
    refine List.mem_flatMap.mpr ⟨_, hsound.mem, List.mem_flatMap.mpr ⟨i.matched, ?_, ?_⟩⟩
    · exact List.mem_range.mpr (Nat.lt_succ_of_le hsound.matched_le)
    · have horigin := List.mem_range.mpr (Nat.lt_succ_of_le hsound.origin_le)
      exact List.mem_map.mpr ⟨i.origin, horigin, rfl⟩
  have hle := hcolumn.nodup.length_le_of_subset hsub
  rwa [List.length_map, length_itemKeys] at hle

/-- Nothing that an item calls for is missing in a column. -/
def Settled (g : Grammar T N) (chart : Chart T N) (column : Column T N) (item : Item T N) : Prop :=
  ∀ new ∈ g.consequences chart [] item, ∃ i ∈ column, i.key = new.key

/-- What lacks nothing lacks nothing in a larger column. -/
theorem Settled.mono {larger : Column T N} (h : g.Settled chart column item)
    (hsub : ∀ i ∈ column, i ∈ larger) : g.Settled chart larger item := by
  intro new hnew
  obtain ⟨old, hmem, hkey⟩ := h new hnew
  exact ⟨old, hsub old hmem, hkey⟩

/-- An item is settled by what its own round adds. -/
theorem settled_round (hg : g.WellFormed) (hchart : g.Precedes word columns place chart)
    (hsound : ∀ i ∈ column, i.Sound g word place) (hitem : item ∈ column) :
    g.Settled chart (g.fresh chart column item ++ column) item := by
  intro new hnew
  rw [← consequences_eq_nil hg hchart hsound hitem] at hnew
  by_cases hold : column.any new.same = true
  · obtain ⟨old, hmem, hsame⟩ := List.any_eq_true.mp hold
    exact ⟨old, List.mem_append_right _ hmem, (Item.same_iff.mp hsame).symm⟩
  · have hfresh : new ∈ g.fresh chart column item :=
      List.mem_filter.mpr ⟨hnew, by simpa using hold⟩
    exact ⟨new, List.mem_append_left _ hfresh, rfl⟩

/-- With enough rounds the saturation keeps the column's items, keeps what is known of them, and
leaves none with anything missing: each is either pending or settled all along. -/
theorem saturate_spec (hg : g.WellFormed) (hchart : g.Precedes word columns place chart)
    (rounds : Nat) {pending : Column T N} (hpending : ∀ i ∈ pending, i ∈ column)
    (hcolumn : g.Emerging word columns place column)
    (hsettled : ∀ i ∈ column, i ∈ pending ∨ g.Settled chart column i)
    (hrounds : pending.length + g.dotCount * (place + 1) ≤ rounds + column.length) :
    (∀ i ∈ column, i ∈ g.saturate chart rounds pending column) ∧
      g.Emerging word columns place (g.saturate chart rounds pending column) ∧
      ∀ i ∈ g.saturate chart rounds pending column,
        g.Settled chart (g.saturate chart rounds pending column) i := by
  induction rounds generalizing pending column with
  | zero =>
    have hle := hcolumn.length_le
    have hnil : pending = [] := List.length_eq_zero_iff.mp (by omega)
    subst hnil
    refine ⟨fun i hi => hi, hcolumn, fun i hi => ?_⟩
    exact (hsettled i hi).resolve_left (List.not_mem_nil)
  | succ rounds ih =>
    cases pending with
    | nil =>
      refine ⟨fun i hi => hi, hcolumn, fun i hi => ?_⟩
      exact (hsettled i hi).resolve_left (List.not_mem_nil)
    | cons item pending =>
      have hitem := hpending item List.mem_cons_self
      have hsub : ∀ i ∈ column, i ∈ g.fresh chart column item ++ column :=
        fun i hi => List.mem_append_right _ hi
      have hlater : ∀ i ∈ g.fresh chart column item ++ pending,
          i ∈ g.fresh chart column item ++ column := by
        intro i hi
        rcases List.mem_append.mp hi with hi | hi
        · exact List.mem_append_left _ hi
        · exact hsub i (hpending i (List.mem_cons_of_mem _ hi))
      have hround : ∀ i ∈ g.fresh chart column item ++ column,
          i ∈ g.fresh chart column item ++ pending ∨
            g.Settled chart (g.fresh chart column item ++ column) i := by
        intro i hi
        rcases List.mem_append.mp hi with hi | hi
        · exact .inl (List.mem_append_left _ hi)
        · rcases hsettled i hi with hmem | hsettled
          · rcases List.mem_cons.mp hmem with rfl | hmem
            · exact .inr (settled_round hg hchart hcolumn.sound hitem)
            · exact .inl (List.mem_append_right _ hmem)
          · exact .inr (hsettled.mono hsub)
      obtain ⟨hkept, hemerging, hall⟩ := ih hlater (hcolumn.round hg hchart hitem) hround (by
        rw [List.length_append, List.length_append]
        rw [List.length_cons] at hrounds
        omega)
      exact ⟨fun i hi => hkept i (hsub i hi), hemerging, hall⟩

end Grammar

end CrateAnalysis
