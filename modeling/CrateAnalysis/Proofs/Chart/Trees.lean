import CrateAnalysis.Chart.Derivation
import CrateAnalysis.Proofs.Chart.Recognition
import CrateAnalysis.Proofs.Grammar.Forest

/-!
# The trees of a chart

A tree is read off a chart from its root downwards. Every step finds what it looks for, because
every item is justified: the item without its last symbol stands in the column of the split, and
a nonterminal over a stretch has a complete item there. The depth that is allowed is enough,
because along a path downwards either the stretch shrinks or a complete item of one symbol passes
to its only nonterminal, and a `UnitRank` bounds how often that can happen in a row. The outcome
is a forest over the terminals of the word with their leaves.
-/

set_option autoImplicit false

namespace CrateAnalysis

namespace Chart

variable {T N α : Type} [DecidableEq T] [DecidableEq N] {g : Grammar T N} {word : List T}
  {chart : Chart T N} {last : Nat}

/-- A fold that always keeps an element, the new one or the one it had, ends with one of them. -/
theorem foldl_keeps {β : Type} {step : Option β → β → Option β}
    (hstep : ∀ best b, step best b = some b ∨ ∃ kept, best = some kept ∧ step best b = some kept)
    (bs : List β) (best : Option β) :
    (bs.foldl step best = best ∧ bs = []) ∨
      ∃ kept, bs.foldl step best = some kept ∧ (kept ∈ bs ∨ best = some kept) := by
  induction bs generalizing best with
  | nil => exact .inl ⟨rfl, rfl⟩
  | cons b bs ih =>
    right
    rw [List.foldl_cons]
    have hnext : ∃ next, step best b = some next ∧ (next = b ∨ best = some next) := by
      rcases hstep best b with h | ⟨kept, hbest, h⟩
      · exact ⟨b, h, .inl rfl⟩
      · exact ⟨kept, h, .inr hbest⟩
    obtain ⟨next, hnext, hfrom⟩ := hnext
    have hkept : ∃ kept, bs.foldl step (step best b) = some kept ∧ (kept ∈ bs ∨ kept = next) := by
      rcases ih (step best b) with ⟨heq, -⟩ | ⟨kept, heq, hmem | hsame⟩
      · exact ⟨next, heq.trans hnext, .inr rfl⟩
      · exact ⟨kept, heq, .inl hmem⟩
      · exact ⟨kept, heq, .inr (Option.some.inj (hsame.symm.trans hnext))⟩
    obtain ⟨kept, heq, hmem | rfl⟩ := hkept
    · exact ⟨kept, heq, .inl (List.mem_cons_of_mem _ hmem)⟩
    · rcases hfrom with rfl | hbest
      · exact ⟨kept, heq, .inl List.mem_cons_self⟩
      · exact ⟨kept, heq, .inr hbest⟩

omit [DecidableEq T] in
/-- There is a best alternative exactly if some item completes the nonterminal, and it is such an
item. -/
theorem best?_spec (column : Column T N) (n : N) (origin : Nat) :
    (best? column n origin = none ∧ ∀ item ∈ column, item.completes n origin = false) ∨
      ∃ whole ∈ column, whole.completes n origin = true ∧
        best? column n origin = some whole := by
  obtain ⟨step, hbest, hstep⟩ : ∃ step : Option (Item T N) → Item T N → Option (Item T N),
      best? column n origin = (column.filter (·.completes n origin)).foldl step none ∧
        ∀ best item, step best item = some item ∨
          ∃ kept, best = some kept ∧ step best item = some kept := by
    refine ⟨_, rfl, ?_⟩
    intro best item
    cases best with
    | none => exact .inl rfl
    | some b =>
      dsimp only
      split
      · exact .inl rfl
      · exact .inr ⟨b, rfl, rfl⟩
  rw [hbest]
  rcases foldl_keeps hstep (column.filter (·.completes n origin)) none with
    ⟨hbest, hempty⟩ | ⟨whole, hbest, hmem | hnone⟩
  · left
    refine ⟨hbest, fun item hitem => ?_⟩
    have hnot := List.filter_eq_nil_iff.mp hempty item hitem
    simpa using hnot
  · right
    obtain ⟨hmem, hcompletes⟩ := List.mem_filter.mp hmem
    exact ⟨whole, hmem, hcompletes, hbest⟩
  · cases hnone

/-- The depth that is enough to read off the trees of an item up to a place. A complete item
needs less than one that only continues, and the less the lower its nonterminal ranks. -/
def need (g : Grammar T N) (rank : N → Nat) (item : Item T N) (stop : Nat) : Nat :=
  (g.dotCount + 1) * (stop - item.origin) +
    if item.next? = none then rank item.production.lhs + 1 else g.dotCount + 1

omit [DecidableEq T] [DecidableEq N] in
/-- No item needs more depth than one that only continues. -/
theorem need_le {rank : N → Nat} (hrank : g.UnitRank rank) (hg : g.WellFormed) {item : Item T N}
    (stop : Nat) (hmem : item.production ∈ g.productions) :
    need g rank item stop ≤ (g.dotCount + 1) * (stop - item.origin) + (g.dotCount + 1) := by
  have hlt := hrank.lt_dotCount _ (hg.mem_productions_iff.mp hmem).1
  unfold need
  split <;> omega

omit [DecidableEq T] in
/-- The last nonterminal that an item has matched needs less depth than the item itself. It lies
over a shorter stretch, or the item only continues, or its production has no other symbol. -/
theorem need_lt_of_completes {rank : N → Nat} (hrank : g.UnitRank rank) (hg : g.WellFormed)
    {item whole : Item T N} {stop matched : Nat} {n : N}
    (hmem : item.production ∈ g.productions) (hmatched : item.matched = matched + 1)
    (hsymbol : item.production.rhs[matched]? = some (.nonterminal n))
    (horigin : item.origin ≤ item.split) (hsplit : item.split < stop)
    (hfirst : item.origin = item.split → matched = 0)
    (hwhole : whole.completes n item.split = true) :
    need g rank whole stop < need g rank item stop := by
  obtain ⟨hwholeOrigin, hwholeNext, hwholeLhs⟩ := Item.completes_iff.mp hwhole
  have hn := hg.mem_of_mem_rhs _ hmem n (List.mem_of_getElem? hsymbol)
  have hlt := hrank.lt_dotCount n hn
  have hneed : need g rank whole stop = (g.dotCount + 1) * (stop - item.split) + (rank n + 1) := by
    rw [need, if_pos hwholeNext, hwholeOrigin, hwholeLhs]
  rw [hneed]
  unfold need
  split
  next hnext =>
    rcases Nat.eq_or_lt_of_le horigin with heq | hlater
    · have hlength := Item.length_le_of_next?_eq_none hnext
      rw [hmatched, hfirst heq] at hlength
      rw [hfirst heq] at hsymbol
      have hunit : item.production.rhs = [.nonterminal n] := by
        cases hrhs : item.production.rhs with
        | nil =>
          rw [hrhs] at hsymbol
          cases hsymbol
        | cons symbol symbols =>
          rw [hrhs, List.length_cons] at hlength
          rw [hrhs] at hsymbol
          obtain rfl := Option.some.inj hsymbol
          rw [List.length_eq_zero_iff.mp (Nat.le_zero.mp (Nat.le_of_succ_le_succ hlength))]
      have hunitRank := hrank.lt_of_unit _ hmem n hunit
      rw [heq]
      omega
    · have hmul := Nat.mul_le_mul_left (g.dotCount + 1)
        (show stop - item.split + 1 ≤ stop - item.origin by omega)
      rw [Nat.mul_add, Nat.mul_one] at hmul
      omega
  next =>
    have hmul := Nat.mul_le_mul_left (g.dotCount + 1)
      (show stop - item.split ≤ stop - item.origin by omega)
    omega

omit [DecidableEq T] in
/-- A column finds the item that it has for a production, and no other. -/
theorem find?_same (hg : g.WellFormed) {column : Column T N} {place : Nat}
    (hsound : ∀ i ∈ column, i.Sound g word place) {wanted : Item T N}
    (hwanted : wanted.production ∈ g.productions)
    (hholds : Holds column wanted.production wanted.matched wanted.origin) :
    ∃ found ∈ column, column.find? wanted.same = some found ∧
      found.production = wanted.production ∧ found.matched = wanted.matched ∧
      found.origin = wanted.origin := by
  obtain ⟨i, hi, hproduction, hmatched, horigin⟩ := hholds
  have hsame : wanted.same i = true := by
    rw [Item.same_iff, Item.key, Item.key, hproduction, hmatched, horigin]
  obtain ⟨found, hfound⟩ := Option.isSome_iff_exists.mp (List.find?_isSome.mpr ⟨i, hi, hsame⟩)
  have hkey := Item.same_iff.mp (List.find?_some hfound)
  simp only [Item.key, Prod.mk.injEq] at hkey
  obtain ⟨hlhs, hnumber, hmatched, horigin⟩ := hkey
  have hmem := List.mem_of_find?_eq_some hfound
  exact ⟨found, hmem, hfound,
    hg.eq_of_number (hsound found hmem).mem hwanted hlhs.symm hnumber.symm, hmatched.symm,
    horigin.symm⟩

/-- The item without its last symbol, as the column of the split has it. -/
structure Precursor (chart : Chart T N) (item : Item T N) (stop matched : Nat)
    (earlier : Item T N) : Prop where
  mem : earlier ∈ Chart.column chart item.split
  find?_eq : (Chart.column chart item.split).find? ({ item with matched := matched }).same =
    some earlier
  production_eq : earlier.production = item.production
  matched_eq : earlier.matched = matched
  origin_eq : earlier.origin = item.origin
  origin_le : item.origin ≤ item.split
  split_lt : item.split < stop
  first : item.origin = item.split → matched = 0

omit [DecidableEq T] in
/-- An item that has matched something has a precursor. -/
theorem exists_precursor (hg : g.WellFormed) (h : g.Charted word (Chart.column chart) last)
    {item : Item T N} {stop matched : Nat} (hstop : stop ≤ last)
    (hitem : item ∈ Chart.column chart stop) (hmatched : item.matched = matched + 1) :
    ∃ earlier, Precursor chart item stop matched earlier := by
  have hsound := (h.emerging stop hstop).sound item hitem
  obtain ⟨hholds, hreason⟩ := (h.emerging stop hstop).justified item hitem matched hmatched
  have hsplit : item.split < stop := by
    rcases hreason with ⟨t, -, -, rfl⟩ | ⟨n, -, hlt, -⟩
    · exact Nat.lt_succ_self _
    · exact hlt
  have hearlier := (h.emerging item.split (by omega)).sound
  have hmem : ({ item with matched := matched } : Item T N).production ∈ g.productions := hsound.mem
  obtain ⟨earlier, hcolumn, hfind, hproduction, hdot, horigin⟩ :=
    find?_same hg hearlier hmem hholds
  refine ⟨earlier, hcolumn, hfind, hproduction, hdot, horigin, ?_, hsplit, ?_⟩
  · have hle := (hearlier earlier hcolumn).origin_le
    rwa [horigin] at hle
  · intro heq
    by_contra hne
    have hlt := (hearlier earlier hcolumn).origin_lt hg (by rwa [hdot])
    rw [horigin] at hlt
    exact Nat.ne_of_lt hlt heq

omit [DecidableEq T] in
/-- The item without its last symbol needs less depth. -/
theorem Precursor.need_lt {rank : N → Nat} (hrank : g.UnitRank rank) (hg : g.WellFormed)
    {item earlier : Item T N} {stop matched : Nat} (h : Precursor chart item stop matched earlier)
    (hmem : item.production ∈ g.productions) :
    need g rank earlier item.split < need g rank item stop := by
  have hle := need_le hrank hg item.split (h.production_eq ▸ hmem)
  have hmul := Nat.mul_le_mul_left (g.dotCount + 1)
    (show item.split - item.origin + 1 ≤ stop - item.origin by
      have hbegin := h.origin_le
      have hsplit := h.split_lt
      omega)
  rw [Nat.mul_add, Nat.mul_one] at hmul
  rw [h.origin_eq] at hle
  have hitem : (g.dotCount + 1) * (stop - item.origin) < need g rank item stop := by
    unfold need
    split <;> omega
  omega

omit [DecidableEq T] in
/-- Reading off the trees of an item finds the trees of all the symbols that it has matched. -/
theorem below?_spec (hg : g.WellFormed) {rank : N → Nat} (hrank : g.UnitRank rank)
    (h : g.Charted word (Chart.column chart) last) {leaves : Array α}
    (hleaves : leaves.size = word.length) (depth : Nat) {item : Item T N} {stop : Nat}
    (hstop : stop ≤ last) (hitem : item ∈ Chart.column chart stop)
    (hdepth : need g rank item stop ≤ depth) :
    ∃ trees, below? chart leaves depth item stop = some trees ∧
      g.Forest (item.production.rhs.take item.matched) trees
        (stretch (word.zip leaves.toList) item.origin stop) := by
  induction depth generalizing item stop with
  | zero =>
    unfold need at hdepth
    split at hdepth <;> omega
  | succ depth ih =>
    have hemerging := h.emerging stop hstop
    have hsound := hemerging.sound item hitem
    have hplace : stop ≤ word.length := Nat.le_trans hstop h.last_le
    unfold below?
    split
    next hzero =>
      refine ⟨[], rfl, ?_⟩
      rw [hzero, List.take_zero, hsound.origin_eq hplace hzero, stretch_self]
      exact .nil
    next matched hmatched =>
      obtain ⟨earlier, hearlier⟩ := exists_precursor hg h hstop hitem hmatched
      have hsplit := hearlier.split_lt
      have hless := hearlier.need_lt hrank hg hsound.mem
      obtain ⟨left, hleft, hforest⟩ :=
        ih (show item.split ≤ last by omega) hearlier.mem (by omega)
      rw [hearlier.production_eq, hearlier.matched_eq, hearlier.origin_eq] at hforest
      have hfind := hearlier.find?_eq
      rw [hmatched, ← stretch_append (word.zip leaves.toList) hearlier.origin_le
        (Nat.le_of_lt hsplit)]
      rcases (hemerging.justified item hitem matched hmatched).2 with
        ⟨t, hsymbol, ht, hnext⟩ | ⟨n, hsymbol, -, whole, hwhole, hcompletes⟩
      · -- the last symbol is the terminal at the split
        have hlt : item.split < leaves.size := by omega
        have hleaf : leaves[item.split]? = some leaves[item.split] :=
          Array.getElem?_eq_getElem hlt
        have hpair : (word.zip leaves.toList)[item.split]? = some (t, leaves[item.split]) :=
          List.getElem?_zip_eq_some.mpr ⟨ht, by rw [Array.getElem?_toList]; exact hleaf⟩
        refine ⟨left ++ [.leaf leaves[item.split]], ?_, ?_⟩
        · simp [hsymbol, hfind, hleft, hleaf]
        · rw [List.take_add_one, hsymbol, hnext, stretch_succ hpair]
          exact hforest.append (.terminal .nil)
      · -- the last symbol is the nonterminal of a complete item
        obtain ⟨hnone, hall⟩ | ⟨best, hbest, hcompletes, hbest?⟩ :=
          best?_spec (Chart.column chart stop) n item.split
        · exact absurd hcompletes (by rw [hall whole hwhole]; simp)
        have hneed := need_lt_of_completes hrank hg hsound.mem hmatched hsymbol
          hearlier.origin_le hsplit hearlier.first hcompletes
        obtain ⟨children, hchildren, hinner⟩ := ih hstop hbest (by omega)
        obtain ⟨hbestOrigin, hbestNext, hbestLhs⟩ := Item.completes_iff.mp hcompletes
        have hbestMem := (hg.mem_productions_iff.mp (hemerging.sound best hbest).mem).2
        rw [List.take_of_length_le (Item.length_le_of_next?_eq_none hbestNext), hbestOrigin]
          at hinner
        rw [hbestLhs] at hbestMem
        rw [List.take_add_one, hsymbol]
        cases hlabel : best.production.label? with
        | none =>
          refine ⟨left ++ children, ?_, ?_⟩
          · simp [hfind, hleft, hbest?, hchildren, hlabel]
          · simpa using hforest.append (.spliced hbestMem hlabel hinner .nil)
        | some label =>
          refine ⟨left ++ [.rule label children], ?_, ?_⟩
          · simp [hfind, hleft, hbest?, hchildren, hlabel]
          · simpa using hforest.append (.labelled hbestMem hlabel hinner .nil)

/-- The root of a word that was read as a whole: its children are a forest of an alternative of
the start if the word is one of the grammar, and otherwise there are none. -/
theorem children?_spec (hg : g.WellFormed) {rank : N → Nat} (hrank : g.UnitRank rank)
    {leaves : Array α} (hleaves : leaves.size = word.length)
    (hreached : reached (g.chart word) = word.length) :
    (g.Generates word ∧ ∃ children, children? g (g.chart word) leaves = some children ∧
        ∃ p ∈ g.alternatives g.start, g.Forest p.rhs children (word.zip leaves.toList)) ∨
      (¬ g.Generates word ∧ children? g (g.chart word) leaves = none) := by
  have h := (Grammar.charted_chart hg word).1
  rw [hreached] at h
  have hgenerates := h.completes_start_iff hg
  rw [List.take_length] at hgenerates
  unfold children?
  rw [hreached]
  obtain ⟨hnone, hall⟩ | ⟨whole, hwhole, hcompletes, hbest⟩ :=
    best?_spec (Chart.column (g.chart word) word.length) g.start 0
  · right
    refine ⟨?_, by simp [hnone]⟩
    rw [← hgenerates]
    rintro ⟨item, hitem, hcompletes⟩
    rw [hall item hitem] at hcompletes
    cases hcompletes
  · left
    refine ⟨hgenerates.mp ⟨whole, hwhole, hcompletes⟩, ?_⟩
    obtain ⟨horigin, hnext, hlhs⟩ := Item.completes_iff.mp hcompletes
    have hsound := (h.emerging _ (Nat.le_refl _)).sound whole hwhole
    have hlt := hrank.lt_dotCount _ hg.start_mem
    obtain ⟨children, hchildren, hforest⟩ := below?_spec hg hrank h hleaves
      ((g.dotCount + 1) * (word.length + 2)) (Nat.le_refl _) hwhole (by
        rw [need, if_pos hnext, horigin, hlhs, Nat.sub_zero, Nat.mul_add]
        omega)
    rw [List.take_of_length_le (Item.length_le_of_next?_eq_none hnext), horigin] at hforest
    have hall : stretch (word.zip leaves.toList) 0 word.length = word.zip leaves.toList := by
      rw [stretch, List.drop_zero]
      apply List.take_of_length_le
      rw [List.length_zip]
      exact Nat.min_le_left _ _
    have hmem := (hg.mem_productions_iff.mp hsound.mem).2
    rw [hlhs] at hmem
    exact ⟨children, by simp [hbest, hchildren], _, hmem, hall ▸ hforest⟩

end Chart

end CrateAnalysis
