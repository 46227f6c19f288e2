import CrateAnalysis.Proofs.Chart.Saturation

/-!
# The columns of a chart

`Grammar.Charted` states what the columns of a chart are, up to the last place that was reached:
every item in them is sound and justified, and they are closed, that is, the start of the
grammar, the alternatives of an awaited nonterminal, the moves over a complete nonterminal and
the moves over the next terminal are all there. The chart of every word has such columns, and it
ends early only where no item awaits the next terminal.
-/

set_option autoImplicit false

namespace CrateAnalysis

namespace Grammar

variable {T N : Type} [DecidableEq T] [DecidableEq N] {g : Grammar T N} {word : List T}
  {columns : Nat → Column T N} {place : Nat} {chart : Chart T N} {column : Column T N}
  {item : Item T N}

/-- The columns of a word up to the place `last`. -/
structure Charted (g : Grammar T N) (word : List T) (columns : Nat → Column T N) (last : Nat) :
    Prop where
  last_le : last ≤ word.length
  emerging : ∀ place ≤ last, g.Emerging word columns place (columns place)
  started : ∀ p ∈ g.alternatives g.start, Holds (columns 0) p 0 0
  predicted : ∀ place ≤ last, ∀ item ∈ columns place, ∀ n, item.next? = some (.nonterminal n) →
    ∀ p ∈ g.alternatives n, Holds (columns place) p 0 place
  completed : ∀ place ≤ last, ∀ whole ∈ columns place, whole.next? = none →
    ∀ item ∈ columns whole.origin, item.next? = some (.nonterminal whole.production.lhs) →
      Holds (columns place) item.production (item.matched + 1) item.origin
  scanned : ∀ place < last, ∀ t, word[place]? = some t →
    ∀ item ∈ columns place, item.next? = some (.terminal t) →
      Holds (columns (place + 1)) item.production (item.matched + 1) item.origin

omit [DecidableEq T] [DecidableEq N] in
/-- An item of the column stands for every sound item that is the same but for the split. -/
theorem holds_of_key (hg : g.WellFormed) {i new : Item T N}
    (hsound : ∀ i ∈ column, i.Sound g word place) (hi : i ∈ column)
    (hnew : new.production ∈ g.productions) (hkey : i.key = new.key) :
    Holds column new.production new.matched new.origin := by
  simp only [Item.key, Prod.mk.injEq] at hkey
  obtain ⟨hlhs, hnumber, hmatched, horigin⟩ := hkey
  exact ⟨i, hi, hg.eq_of_number (hsound i hi).mem hnew hlhs hnumber, hmatched, horigin⟩

/-- The column of a place lacks nothing: it has the items of its kernel, the alternatives that
its items await, and the moves over what is complete in it. -/
structure Closed (g : Grammar T N) (word : List T) (columns : Nat → Column T N) (place : Nat)
    (kernel : Column T N) : Prop where
  kept : ∀ i ∈ kernel, i ∈ columns place
  emerging : g.Emerging word columns place (columns place)
  predicted : ∀ item ∈ columns place, ∀ n, item.next? = some (.nonterminal n) →
    ∀ p ∈ g.alternatives n, Holds (columns place) p 0 place
  completed : ∀ whole ∈ columns place, whole.next? = none →
    ∀ item ∈ columns whole.origin, item.next? = some (.nonterminal whole.production.lhs) →
      Holds (columns place) item.production (item.matched + 1) item.origin

/-- What was saturated from a kernel is closed. -/
theorem closed_close (hg : g.WellFormed) (hchart : g.Precedes word columns place chart)
    {kernel : Column T N} (hkernel : g.Emerging word columns place kernel)
    (hclose : columns place = g.close chart kernel) : g.Closed word columns place kernel := by
  have hrounds : kernel.length + g.dotCount * (place + 1) ≤
      g.dotCount * (chart.size + 1) + 1 + kernel.length := by
    rw [hchart.size_eq]
    omega
  obtain ⟨hkept, hemerging, hsettled⟩ := saturate_spec hg hchart
    (g.dotCount * (chart.size + 1) + 1) (fun i hi => hi) hkernel (fun i hi => .inl hi) hrounds
  rw [← close, ← hclose] at hkept hemerging hsettled
  refine ⟨hkept, hemerging, ?_, ?_⟩
  · intro item hitem n hnext p hp
    have hnew : Item.start place p ∈ g.consequences chart [] item := by
      unfold consequences
      rw [hnext]
      exact List.mem_map.mpr ⟨p, List.mem_reverse.mpr hp, by rw [hchart.size_eq]⟩
    obtain ⟨i, hi, hkey⟩ := hsettled item hitem _ hnew
    exact holds_of_key hg hemerging.sound hi
      ((hemerging.sound item hitem).predict hg hnext hp).mem hkey
  · intro whole hwhole hnext item hitem hawaits
    have hsound := hemerging.sound whole hwhole
    have hmem : item.production ∈ g.productions := by
      rcases Nat.lt_or_eq_of_le hsound.origin_le with hlt | heq
      · exact (hchart.sound _ hlt item hitem).mem
      · rw [heq] at hitem
        exact (hemerging.sound item hitem).mem
    -- nothing waits for an item that is complete at its own origin
    have hlt := hsound.origin_lt_of_used hg hnext hmem (Item.rhs_of_next? hawaits).1
    have hnew : item.advance whole.origin ∈ g.consequences chart [] whole := by
      unfold consequences
      rw [hnext]
      refine List.mem_map.mpr ⟨item, List.mem_filter.mpr ⟨?_, ?_⟩, rfl⟩
      · rw [hchart.getElem?_eq _ hlt]
        exact hitem
      · exact decide_eq_true hawaits
    obtain ⟨i, hi, hkey⟩ := hsettled whole hwhole _ hnew
    exact @holds_of_key _ _ _ _ _ _ hg i (item.advance whole.origin) hemerging.sound hi hmem hkey

omit [DecidableEq T] in
/-- The alternatives of the start are what the first column can begin with. -/
theorem emerging_start (hg : g.WellFormed) :
    g.Emerging word columns 0 ((g.alternatives g.start).reverse.map (Item.start 0)) := by
  refine ⟨?_, ?_, ?_⟩
  · intro item hitem
    obtain ⟨p, hp, rfl⟩ := List.mem_map.mp hitem
    exact Item.sound_start hg (List.mem_reverse.mp hp)
  · rw [List.Nodup, List.pairwise_map, List.pairwise_map, List.pairwise_reverse]
    refine (List.pairwise_map.mp (hg.nodup_number _ hg.start_mem)).imp ?_
    intro a b hne heq
    exact hne (congrArg (·.2.1) heq).symm
  · intro item hitem m hm
    obtain ⟨p, hp, rfl⟩ := List.mem_map.mp hitem
    cases hm

/-- What has moved over the next terminal is what the next column can begin with. -/
theorem emerging_scan (hcolumn : g.Emerging word columns place (columns place)) {t : T}
    (ht : word[place]? = some t) :
    g.Emerging word columns (place + 1) (scan (columns place) place t) := by
  have hmem : ∀ item ∈ scan (columns place) place t, ∃ i ∈ columns place,
      i.next? = some (.terminal t) ∧ item = i.advance place := by
    intro item hitem
    obtain ⟨i, hi, rfl⟩ := List.mem_map.mp hitem
    obtain ⟨hi, hawaits⟩ := List.mem_filter.mp hi
    exact ⟨i, hi, of_decide_eq_true hawaits, rfl⟩
  refine ⟨?_, ?_, ?_⟩
  · intro item hitem
    obtain ⟨i, hi, hnext, rfl⟩ := hmem item hitem
    refine (hcolumn.sound i hi).match_next hnext (Nat.le_succ place) ?_
    rw [stretch_succ ht]
    exact .terminal .nil
  · rw [scan, List.Nodup, List.pairwise_map, List.pairwise_map]
    refine (List.pairwise_map.mp hcolumn.nodup).filter _ |>.imp ?_
    intro a b hne heq
    exact hne (Item.key_advance_eq_iff.mp heq)
  · intro item hitem m hm
    obtain ⟨i, hi, hnext, rfl⟩ := hmem item hitem
    obtain rfl : i.matched = m := Nat.succ.inj hm
    exact ⟨⟨i, hi, rfl, rfl, rfl⟩, .inl ⟨t, hnext, ht, rfl⟩⟩

/-- The column after a place is the closure of the column there moved over the next terminal. -/
def Follows (g : Grammar T N) (word : List T) (chart : Chart T N) (place : Nat) : Prop :=
  ∃ (t : T) (earlier : Chart T N), word[place]? = some t ∧ earlier.size = place + 1 ∧
    (∀ j ≤ place, earlier[j]? = chart[j]?) ∧
    scan (Chart.column chart place) place t ≠ [] ∧
    Chart.column chart (place + 1) = g.close earlier (scan (Chart.column chart place) place t)

/-- A chart with a column after it was extended up to the place `last`: its columns are kept, the
others follow one by one, and it stops at the end of the word or where the next terminal is not
awaited. -/
structure Extension (g : Grammar T N) (word : List T) (chart : Chart T N) (column : Column T N)
    (extended : Chart T N) (last : Nat) : Prop where
  size_le_last : chart.size ≤ last
  last_le : last ≤ word.length
  size_eq : extended.size = last + 1
  kept : ∀ j < chart.size, extended[j]? = chart[j]?
  here : extended[chart.size]? = some column
  follows : ∀ place, chart.size ≤ place → place < last → g.Follows word extended place
  stuck : ∀ t, word[last]? = some t → scan (Chart.column extended last) last t = []

omit [DecidableEq T] [DecidableEq N] in
/-- A new column leaves the earlier ones where they are. -/
theorem getElem?_push_of_lt (chart : Chart T N) (column : Column T N) {j : Nat}
    (hj : j < chart.size) : (chart.push column)[j]? = chart[j]? := by
  rw [Array.getElem?_push, if_neg (Nat.ne_of_lt hj)]

/-- The extension ends with the column itself if no next terminal is awaited there. -/
theorem extension_push (g : Grammar T N) {word : List T} (hle : chart.size ≤ word.length)
    (hstuck : ∀ t, word[chart.size]? = some t → scan column chart.size t = []) :
    g.Extension word chart column (chart.push column) chart.size where
  size_le_last := Nat.le_refl _
  last_le := hle
  size_eq := Array.size_push _
  kept := fun _ hj => getElem?_push_of_lt chart column hj
  here := Array.getElem?_push_size
  follows := fun _ hge hlt => absurd hlt (Nat.not_lt_of_le hge)
  stuck := by
    rw [Chart.column, Array.getElem?_push_size, Option.getD_some]
    exact hstuck

/-- One column more in front of an extension, which goes on from the terminal after it. -/
theorem Extension.cons {extended : Chart T N} {last : Nat} {t : T}
    (ht : word[chart.size]? = some t) (hscan : scan column chart.size t ≠ [])
    (h : g.Extension word (chart.push column)
      (g.close (chart.push column) (scan column chart.size t)) extended last) :
    g.Extension word chart column extended last := by
  obtain ⟨hfirst, hlast, hsize, hkept, hhere, hfollows, hstuck⟩ := h
  rw [Array.size_push] at hfirst hkept hhere hfollows
  have hcolumn : extended[chart.size]? = some column := by
    rw [hkept _ (Nat.lt_succ_self _), Array.getElem?_push_size]
  have hcolumn' : Chart.column extended chart.size = column := by
    rw [Chart.column, hcolumn, Option.getD_some]
  refine ⟨Nat.le_of_succ_le hfirst, hlast, hsize, ?_, hcolumn, ?_, hstuck⟩
  · intro j hj
    rw [hkept j (Nat.lt_succ_of_lt hj), getElem?_push_of_lt chart column hj]
  · intro place hge hplace
    rcases Nat.eq_or_lt_of_le hge with rfl | hgt
    · refine ⟨t, chart.push column, ht, Array.size_push _, ?_, ?_, ?_⟩
      · intro j hj
        rw [hkept j (Nat.lt_succ_of_le hj)]
      · rw [hcolumn']
        exact hscan
      · rw [hcolumn', Chart.column, hhere, Option.getD_some]
    · exact hfollows place hgt hplace

/-- A chart is extended over the rest of the word, column by column, up to some place. -/
theorem exists_extension (g : Grammar T N) (word : List T) {rest : List T}
    (hrest : word.drop chart.size = rest) (hle : chart.size ≤ word.length) :
    ∃ last, g.Extension word chart column (g.extend chart column rest) last := by
  induction rest generalizing chart column with
  | nil =>
    refine ⟨chart.size, extension_push g hle fun t ht => ?_⟩
    rw [List.getElem?_eq_none (List.drop_eq_nil_iff.mp hrest)] at ht
    cases ht
  | cons t rest ih =>
    have hnext : word[chart.size]? = some t ∧ word.drop (chart.size + 1) = rest := by
      rw [← Nat.add_zero chart.size, ← List.getElem?_drop, Nat.add_zero, ← List.drop_drop, hrest]
      exact ⟨rfl, rfl⟩
    obtain ⟨ht, hrest⟩ := hnext
    unfold extend
    split
    next hscan =>
      refine ⟨chart.size, extension_push g hle fun t' ht' => ?_⟩
      obtain rfl : t = t' := Option.some.inj (ht.symm.trans ht')
      exact hscan
    next kernel hkernel =>
      have hlt : chart.size < word.length := (List.getElem?_eq_some_iff.mp ht).1
      obtain ⟨last, hextension⟩ :=
        @ih (chart.push column) (g.close (chart.push column) (scan column chart.size t))
          (by rw [Array.size_push, hrest]) (by rw [Array.size_push]; exact hlt)
      exact ⟨last, .cons ht hkernel hextension⟩

/-- The chart of a word begins with the closed start of the grammar, each column follows the one
before, and the chart ends with the word or where the next terminal is not awaited. -/
theorem chart_spec (g : Grammar T N) (word : List T) :
    Chart.reached (g.chart word) ≤ word.length ∧
      (∀ j ≤ Chart.reached (g.chart word),
        (g.chart word)[j]? = some (Chart.column (g.chart word) j)) ∧
      Chart.column (g.chart word) 0 =
        g.close #[] ((g.alternatives g.start).reverse.map (Item.start 0)) ∧
      (∀ place < Chart.reached (g.chart word), g.Follows word (g.chart word) place) ∧
      ∀ t, word[Chart.reached (g.chart word)]? = some t →
        scan (Chart.column (g.chart word) (Chart.reached (g.chart word)))
          (Chart.reached (g.chart word)) t = [] := by
  obtain ⟨last, -, hlast, hsize, -, hfirst, hsteps, hend⟩ :=
    @exists_extension _ _ _ _ #[] g.firstColumn g word word rfl (Nat.zero_le _)
  change (g.chart word).size = last + 1 at hsize
  change (g.chart word)[0]? = some g.firstColumn at hfirst
  have hreached : Chart.reached (g.chart word) = last := by
    rw [Chart.reached, hsize, Nat.add_sub_cancel]
  rw [hreached]
  refine ⟨hlast, ?_, ?_, fun place => hsteps place (Nat.zero_le _), hend⟩
  · intro j hj
    have hlt : j < (g.chart word).size := by omega
    rw [Chart.column, Array.getElem?_eq_getElem hlt, Option.getD_some]
  · rw [Chart.column, hfirst, Option.getD_some, firstColumn]

/-- Every column that was reached is closed over a kernel, which is not empty: the start of the
grammar, or the column before moved over the terminal between them. -/
theorem exists_closed (hg : g.WellFormed) (hcolumns : Chart.column (g.chart word) = columns)
    (hplace : place ≤ Chart.reached (g.chart word))
    (hbefore : ∀ j < place, g.Emerging word columns j (columns j)) :
    ∃ kernel, kernel ≠ [] ∧ g.Closed word columns place kernel ∧
      (place = 0 → kernel = (g.alternatives g.start).reverse.map (Item.start 0)) ∧
      ∀ k t, place = k + 1 → word[k]? = some t → kernel = scan (columns k) k t := by
  obtain ⟨-, hget, hzero, hfollows, -⟩ := chart_spec g word
  rw [hcolumns] at hget hzero
  have hprecedes : ∀ earlier : Chart T N, earlier.size = place →
      (∀ j < place, earlier[j]? = (g.chart word)[j]?) →
      g.Precedes word columns place earlier := by
    intro earlier hsize hearlier
    refine ⟨hsize, ?_, fun j hj => (hbefore j hj).sound, fun j hj => (hbefore j hj).nodup⟩
    intro j hj
    rw [hearlier j hj, hget j (by omega)]
  cases place with
  | zero =>
    have hnone := hprecedes #[] rfl fun j hj => absurd hj (Nat.not_lt_zero j)
    refine ⟨_, ?_, closed_close hg hnone (emerging_start hg) hzero, fun _ => rfl,
      fun k t h => absurd h.symm (Nat.succ_ne_zero k)⟩
    -- the start derives some word, so it has an alternative
    obtain ⟨u, hu⟩ := hg.productive g.start hg.start_mem
    obtain ⟨p, hp, -⟩ := derives_nonterminal_iff.mp hu
    exact List.ne_nil_of_mem (List.mem_map.mpr ⟨p, List.mem_reverse.mpr hp, rfl⟩)
  | succ place =>
    obtain ⟨t, earlier, ht, hsize, hearlier, hscan, hclose⟩ := hfollows place hplace
    rw [hcolumns] at hscan hclose
    have hearlier := hprecedes earlier hsize fun j hj => hearlier j (Nat.le_of_lt_succ hj)
    have hkernel := emerging_scan (hbefore place (Nat.lt_succ_self place)) ht
    refine ⟨_, hscan, closed_close hg hearlier hkernel hclose,
      fun h => absurd h (Nat.succ_ne_zero place), ?_⟩
    intro k t' hk ht'
    obtain rfl := Nat.succ.inj hk
    obtain rfl : t = t' := Option.some.inj (ht ▸ ht')
    rfl

/-- Every column of the finished chart keeps what the saturation keeps. -/
theorem emerging_column (hg : g.WellFormed) (word : List T) {place : Nat}
    (hplace : place ≤ Chart.reached (g.chart word)) :
    g.Emerging word (Chart.column (g.chart word)) place (Chart.column (g.chart word) place) := by
  induction place using Nat.strongRecOn with
  | ind place ih =>
    obtain ⟨kernel, -, hclosed, -, -⟩ :=
      exists_closed hg rfl hplace fun j hj => ih j hj (by omega)
    exact hclosed.emerging

/-- The chart of a word has the columns of the word up to the place that it reached, and each of
them has an item. It ends before the word only where nothing awaits the next terminal. -/
theorem charted_chart (hg : g.WellFormed) (word : List T) :
    g.Charted word (Chart.column (g.chart word)) (Chart.reached (g.chart word)) ∧
      (∀ place ≤ Chart.reached (g.chart word), Chart.column (g.chart word) place ≠ []) ∧
      ∀ t, word[Chart.reached (g.chart word)]? = some t →
        ∀ item ∈ Chart.column (g.chart word) (Chart.reached (g.chart word)),
          item.next? ≠ some (.terminal t) := by
  have hkernel := fun place (hplace : place ≤ Chart.reached (g.chart word)) =>
    @exists_closed _ _ _ _ g word _ place hg rfl hplace
      fun j hj => emerging_column hg word (by omega)
  refine ⟨⟨(chart_spec g word).1, fun place => emerging_column hg word, ?_, ?_, ?_, ?_⟩, ?_, ?_⟩
  · intro p hp
    obtain ⟨kernel, -, hclosed, hstart, -⟩ := hkernel 0 (Nat.zero_le _)
    have hmem : Item.start 0 p ∈ kernel := by
      rw [hstart rfl]
      exact List.mem_map.mpr ⟨p, List.mem_reverse.mpr hp, rfl⟩
    exact ⟨_, hclosed.kept _ hmem, rfl, rfl, rfl⟩
  · intro place hplace
    obtain ⟨kernel, -, hclosed, -, -⟩ := hkernel place hplace
    exact hclosed.predicted
  · intro place hplace
    obtain ⟨kernel, -, hclosed, -, -⟩ := hkernel place hplace
    exact hclosed.completed
  · intro place hplace t ht item hitem hnext
    obtain ⟨kernel, -, hclosed, -, hscan⟩ := hkernel (place + 1) hplace
    have hmem : item.advance place ∈ kernel := by
      rw [hscan place t rfl ht]
      exact List.mem_map.mpr ⟨item, List.mem_filter.mpr ⟨hitem, decide_eq_true hnext⟩, rfl⟩
    exact ⟨_, hclosed.kept _ hmem, rfl, rfl, rfl⟩
  · intro place hplace
    obtain ⟨kernel, hne, hclosed, -, -⟩ := hkernel place hplace
    obtain ⟨item, hitem⟩ := List.exists_mem_of_ne_nil kernel hne
    exact List.ne_nil_of_mem (hclosed.kept item hitem)
  · intro t ht item hitem hnext
    have hempty := (chart_spec g word).2.2.2.2 t ht
    rw [scan, List.map_eq_nil_iff, List.filter_eq_nil_iff] at hempty
    exact hempty item hitem (decide_eq_true hnext)

end Grammar

end CrateAnalysis
