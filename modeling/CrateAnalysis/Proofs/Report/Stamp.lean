import CrateAnalysis.Proofs.Report.Dump
import Mathlib.Data.List.Lex
import Mathlib.Data.String.Basic
import Mathlib.Tactic.SplitIfs

/-!
# Stamps sort like time

Every field of a stamp has a fixed width, so two stamps are compared field by field: the order of
the texts is the lexicographic order of the numbers in them. A moment that comes later by the
calendar and the clock is later in that order too, since no month has more days, and no day more
hours, than fit before the next one. So stamps, and the names of the files that bear them, sort like
the moments that they name, cut down to milliseconds, and two dumps share their files exactly if
they belong to one millisecond.
-/

set_option autoImplicit false

namespace CrateAnalysis

/-- Two orders that agree both ways agree on what is equal. -/
theorem eq_iff_of_lt_iff {α β : Type} [LinearOrder α] [LinearOrder β] {x y : α} {m n : β}
    (hlt : x < y ↔ m < n) (hgt : y < x ↔ n < m) : x = y ↔ m = n := by
  rw [le_antisymm_iff, le_antisymm_iff, ← not_lt, ← not_lt, ← not_lt, ← not_lt, hlt, hgt]

/-- Of two texts that begin with parts of one length, these parts decide, unless they agree. -/
theorem append_lt_append_iff {p q u v : List Char} (h : p.length = q.length) :
    p ++ u < q ++ v ↔ p < q ∨ p = q ∧ u < v := by
  induction p generalizing q with
  | nil =>
    obtain rfl := List.length_eq_zero_iff.mp h.symm
    simp
  | cons c p ih =>
    cases q with
    | nil => cases h
    | cons d q =>
      have hrest := ih (Nat.succ.inj h)
      rw [List.cons_append, List.cons_append, List.cons_lt_cons_iff, List.cons_lt_cons_iff, hrest,
        List.cons.injEq]
      tauto

namespace Moment

instance (m : Moment) : Decidable m.Valid := by unfold Valid; infer_instance

/-- The valid moments are those that can be made of their fields. -/
theorem valid_iff_ofFields (m : Moment) :
    m.Valid ↔ ofFields m.year m.month m.day m.hour m.minute m.second m.microsecond = .ok m := by
  unfold Valid ofFields
  simp only [Int.toNat_natCast]
  constructor
  · rintro ⟨_, _, _, _, _, _, _, _, _, _⟩
    rw [if_neg, if_neg, if_neg, if_neg, if_neg, if_neg, if_neg] <;> omega
  · intro h
    split_ifs at h
    omega

/-! ## Numbers of one width -/

/-- A single digit needs no padding. -/
theorem padded_one {n : Nat} (h : n < 10) : padded 1 n = [n.digitChar] := by
  simp [padded, Nat.toDigits_of_lt_base h]

/-- The last digit stands alone behind the others. -/
theorem padded_succ {width : Nat} (hwidth : 0 < width) (n : Nat) :
    padded (width + 1) n = padded width (n / 10) ++ [(n % 10).digitChar] := by
  by_cases hsmall : n < 10
  · obtain ⟨fill, rfl⟩ : ∃ fill, width = fill + 1 := ⟨width - 1, by omega⟩
    have hzero : n / 10 = 0 := Nat.div_eq_of_lt hsmall
    rw [padded, padded, Nat.toDigits_of_lt_base hsmall, hzero, Nat.mod_eq_of_lt hsmall]
    simp [List.replicate_succ']
  · have hsplit : Nat.toDigits 10 n = Nat.toDigits 10 (n / 10) ++ [(n % 10).digitChar] :=
      Nat.toDigits_of_base_le (by omega) (by omega)
    simp only [padded, hsplit, List.length_append, List.length_singleton, Nat.add_sub_add_right,
      List.append_assoc]

/-- A number that fits into a width takes it up. -/
theorem length_padded {width n : Nat} (hwidth : 0 < width) (h : n < 10 ^ width) :
    (padded width n).length = width := by
  have hlength : (Nat.toDigits 10 n).length ≤ width :=
    (Nat.length_toDigits_le_iff (by decide) hwidth).mpr h
  simp only [padded, List.length_append, List.length_replicate]
  omega

/-- Digits are ordered as the numbers that they stand for. -/
theorem digitChar_lt_iff {m n : Nat} (hm : m < 10) (hn : n < 10) :
    [m.digitChar] < [n.digitChar] ↔ m < n := by
  have hdigits : ∀ i j : Fin 10, [i.val.digitChar] < [j.val.digitChar] ↔ i.val < j.val := by
    decide
  exact hdigits ⟨m, hm⟩ ⟨n, hn⟩

/-- Numbers that fit into one width are ordered as their digits are. -/
theorem padded_lt_iff {width m n : Nat} (hwidth : 0 < width) (hm : m < 10 ^ width)
    (hn : n < 10 ^ width) : padded width m < padded width n ↔ m < n := by
  induction width, hwidth using Nat.le_induction generalizing m n with
  | base => rw [padded_one hm, padded_one hn, digitChar_lt_iff hm hn]
  | succ width hwidth ih =>
    have hm' : m / 10 < 10 ^ width := by omega
    have hn' : n / 10 < 10 ^ width := by omega
    have hlength : (padded width (m / 10)).length = (padded width (n / 10)).length := by
      rw [length_padded hwidth hm', length_padded hwidth hn']
    have heq : padded width (m / 10) = padded width (n / 10) ↔ m / 10 = n / 10 :=
      eq_iff_of_lt_iff (ih hm' hn') (ih hn' hm')
    rw [padded_succ hwidth, padded_succ hwidth, append_lt_append_iff hlength, ih hm' hn', heq,
      digitChar_lt_iff (Nat.mod_lt _ (by decide)) (Nat.mod_lt _ (by decide))]
    omega

/-! ## Texts in slots -/

/-- A place for a number in a text: what separates it from the place before it, and its width. -/
structure Slot where
  separator : List Char
  width : Nat

/-- Numbers written in slots. -/
def inscribe : List Slot → List Nat → List Char
  | slot :: slots, n :: ns => slot.separator ++ padded slot.width n ++ inscribe slots ns
  | _, _ => []

/-- The slots of a stamp. -/
def stampSlots : List Slot :=
  [⟨[], 4⟩, ⟨['-'], 2⟩, ⟨['-'], 2⟩, ⟨['_'], 2⟩, ⟨['-'], 2⟩, ⟨['-'], 2⟩, ⟨['-'], 3⟩]

/-- There is a number for each slot, and it fits into the width of the slot. -/
def Fit (slots : List Slot) (ns : List Nat) : Prop :=
  List.Forall₂ (fun slot n => 0 < slot.width ∧ n < 10 ^ slot.width) slots ns

/-- How long a text in slots is. -/
def extent : List Slot → Nat
  | [] => 0
  | slot :: slots => slot.separator.length + slot.width + extent slots

/-- Numbers that fit make a text as long as its slots. -/
theorem length_inscribe {slots : List Slot} {ns : List Nat} (h : Fit slots ns) :
    (inscribe slots ns).length = extent slots := by
  induction h with
  | nil => rfl
  | cons hfit _ ih =>
    simp only [inscribe, extent, List.length_append, length_padded hfit.1 hfit.2, ih]

/-- Texts in the same slots are ordered as the numbers in them. -/
theorem inscribe_lt_iff {slots : List Slot} {ms ns : List Nat} (hms : Fit slots ms)
    (hns : Fit slots ns) : inscribe slots ms < inscribe slots ns ↔ ms < ns := by
  induction hms generalizing ns with
  | nil =>
    cases hns
    simp [inscribe]
  | @cons slot m slots ms hm _ ih =>
    cases hns with
    | @cons _ n _ ns hn hns =>
      have hlength : (slot.separator ++ padded slot.width m).length =
          (slot.separator ++ padded slot.width n).length := by
        rw [List.length_append, List.length_append, length_padded hm.1 hm.2,
          length_padded hn.1 hn.2]
      have hlt := padded_lt_iff hm.1 hm.2 hn.2
      have heq := eq_iff_of_lt_iff hlt (padded_lt_iff hn.1 hn.2 hm.2)
      rw [inscribe, inscribe, append_lt_append_iff hlength, append_lt_append_iff rfl,
        List.append_cancel_left_eq, hlt, heq, ih hns, List.cons_lt_cons_iff]
      simp

/-- The numbers that a stamp shows. -/
def shown (m : Moment) : List Nat :=
  [m.year, m.month, m.day, m.hour, m.minute, m.second, m.microsecond / 1000]

/-- A stamp is written in its slots. -/
theorem stamp_eq (m : Moment) : m.stamp = String.ofList (inscribe stampSlots m.shown) := by
  simp [stamp, inscribe, stampSlots, shown]

/-- No month has more than 31 days. -/
theorem daysIn_le (year month : Nat) : daysIn year month ≤ 31 := by
  unfold daysIn
  split
  · split <;> decide
  · split <;> decide

/-- The fields of a valid moment fit into the slots of a stamp. -/
theorem Valid.fit {m : Moment} (h : m.Valid) : Fit stampSlots m.shown := by
  have hdays := daysIn_le m.year m.month
  obtain ⟨_, hyear, _, hmonth, _, hday, hhour, hminute, hsecond, hmicrosecond⟩ := h
  have hwidths : m.year < 10 ^ 4 ∧ m.month < 10 ^ 2 ∧ m.day < 10 ^ 2 ∧ m.hour < 10 ^ 2 ∧
      m.minute < 10 ^ 2 ∧ m.second < 10 ^ 2 ∧ m.microsecond / 1000 < 10 ^ 3 := by omega
  simpa [Fit, stampSlots, shown] using hwidths

/-- All stamps have one length. -/
theorem length_stamp {m : Moment} (h : m.Valid) : m.stamp.length = 23 := by
  rw [stamp_eq, String.length_ofList, length_inscribe h.fit]
  rfl

/-- Stamps are ordered as the numbers that they show. -/
theorem stamp_lt_iff {a b : Moment} (ha : a.Valid) (hb : b.Valid) :
    a.stamp < b.stamp ↔ a.shown < b.shown := by
  rw [stamp_eq, stamp_eq, String.lt_iff_toList_lt, String.toList_ofList, String.toList_ofList,
    inscribe_lt_iff ha.fit hb.fit]

/-! ## The calendar -/

/-- The number of days in the first months of a year. -/
def daysOfMonths (year : Nat) : Nat → Nat
  | 0 => 0
  | month + 1 => daysOfMonths year month + daysIn year (month + 1)

/-- The number of days in the first years of the calendar. -/
def daysOfYears : Nat → Nat
  | 0 => 0
  | year + 1 => daysOfYears year + daysOfMonths (year + 1) 12

/-- How many days of the calendar come before the day of a moment. -/
def daysBefore (m : Moment) : Nat :=
  daysOfYears (m.year - 1) + daysOfMonths m.year (m.month - 1) + (m.day - 1)

/-- How many microseconds of the calendar come before a moment. -/
def elapsed (m : Moment) : Nat :=
  (((m.daysBefore * 24 + m.hour) * 60 + m.minute) * 60 + m.second) * 1000000 + m.microsecond

/-- A moment cut down to milliseconds. -/
def cut (m : Moment) : Moment := { m with microsecond := m.microsecond / 1000 * 1000 }

/-- The fields of a moment, the largest first. -/
def fields (m : Moment) : List Nat :=
  [m.year, m.month, m.day, m.hour, m.minute, m.second, m.microsecond]

/-- More months have more days. -/
theorem daysOfMonths_mono (year : Nat) : Monotone (daysOfMonths year) :=
  monotone_nat_of_le_succ fun _ => Nat.le_add_right _ _

/-- More years have more days. -/
theorem daysOfYears_mono : Monotone daysOfYears :=
  monotone_nat_of_le_succ fun _ => Nat.le_add_right _ _

/-- The last of some years adds the days of its months. -/
theorem daysOfYears_eq {year : Nat} (h : 1 ≤ year) :
    daysOfYears year = daysOfYears (year - 1) + daysOfMonths year 12 := by
  obtain ⟨earlier, rfl⟩ : ∃ earlier, year = earlier + 1 := ⟨year - 1, by omega⟩
  rfl

/-- The last of some months adds its days. -/
theorem daysOfMonths_eq {year month : Nat} (h : 1 ≤ month) :
    daysOfMonths year month = daysOfMonths year (month - 1) + daysIn year month := by
  obtain ⟨earlier, rfl⟩ : ∃ earlier, month = earlier + 1 := ⟨month - 1, by omega⟩
  rfl

/-- A day comes before the month after its own. -/
theorem Valid.dayOfMonths_lt {m : Moment} (h : m.Valid) :
    daysOfMonths m.year (m.month - 1) + (m.day - 1) < daysOfMonths m.year m.month := by
  obtain ⟨_, _, hmonth, _, hfirst, hday, _⟩ := h
  rw [daysOfMonths_eq hmonth]
  omega

/-- A day comes before the year after its own. -/
theorem Valid.daysBefore_lt {m : Moment} (h : m.Valid) : m.daysBefore < daysOfYears m.year := by
  have hmonths := h.dayOfMonths_lt
  have hyear := daysOfMonths_mono m.year h.2.2.2.1
  rw [daysBefore, daysOfYears_eq h.1]
  omega

/-- Later years have later days. -/
theorem daysBefore_lt_of_year {a b : Moment} (ha : a.Valid) (h : a.year < b.year) :
    a.daysBefore < b.daysBefore := by
  have hbefore := ha.daysBefore_lt
  have hyears := daysOfYears_mono (Nat.le_sub_one_of_lt h)
  rw [daysBefore.eq_def b]
  omega

/-- Later months of one year have later days. -/
theorem daysBefore_lt_of_month {a b : Moment} (ha : a.Valid) (hyear : a.year = b.year)
    (h : a.month < b.month) : a.daysBefore < b.daysBefore := by
  have hbefore := ha.dayOfMonths_lt
  have hmonths := daysOfMonths_mono a.year (Nat.le_sub_one_of_lt h)
  rw [daysBefore, daysBefore, ← hyear]
  omega

/-- Days are ordered as their dates are. -/
theorem daysBefore_lt_iff {a b : Moment} (ha : a.Valid) (hb : b.Valid) :
    a.daysBefore < b.daysBefore ↔
      a.year < b.year ∨
        a.year = b.year ∧ (a.month < b.month ∨ a.month = b.month ∧ a.day < b.day) := by
  rcases lt_trichotomy a.year b.year with hyear | hyear | hyear
  · have hdays := daysBefore_lt_of_year ha hyear
    omega
  · rcases lt_trichotomy a.month b.month with hmonth | hmonth | hmonth
    · have hdays := daysBefore_lt_of_month ha hyear hmonth
      omega
    · have hdays : a.daysBefore + b.day = b.daysBefore + a.day := by
        have hfirst := ha.2.2.2.2.1
        have hfirst' := hb.2.2.2.2.1
        rw [daysBefore, daysBefore, hyear, hmonth]
        omega
      omega
    · have hdays := daysBefore_lt_of_month hb hyear.symm hmonth
      omega
  · have hdays := daysBefore_lt_of_year hb hyear
    omega

/-- Moments are ordered by time as their fields are. -/
theorem elapsed_lt_iff {a b : Moment} (ha : a.Valid) (hb : b.Valid) :
    a.elapsed < b.elapsed ↔ a.fields < b.fields := by
  have hlt := daysBefore_lt_iff ha hb
  have hgt := daysBefore_lt_iff hb ha
  obtain ⟨_, _, _, _, _, _, _⟩ := ha
  obtain ⟨_, _, _, _, _, _, _⟩ := hb
  simp only [fields, List.cons_lt_cons_iff, List.not_lt_nil, and_false, or_false, elapsed]
  omega

/-! ## Milliseconds -/

/-- A moment is known from its fields. -/
theorem fields_injective : Function.Injective fields := by
  rintro ⟨⟩ ⟨⟩ h
  simpa [fields] using h

/-- What is left of a valid moment is valid. -/
theorem Valid.cut {m : Moment} (h : m.Valid) : m.cut.Valid := by
  obtain ⟨hyear, hyear', hmonth, hmonth', hday, hday', hhour, hminute, hsecond, _⟩ := h
  refine ⟨hyear, hyear', hmonth, hmonth', hday, hday', hhour, hminute, hsecond, ?_⟩
  simp only [Moment.cut]
  omega

/-- What is cut off is less than a millisecond. -/
theorem elapsed_cut (m : Moment) : m.cut.elapsed = m.elapsed / 1000 * 1000 := by
  have hdays : m.cut.daysBefore = m.daysBefore := rfl
  simp only [elapsed, hdays]
  simp only [cut]
  omega

/-- A stamp shows what is left of a moment once it is cut down. -/
theorem shown_lt_iff (a b : Moment) : a.shown < b.shown ↔ a.cut.fields < b.cut.fields := by
  simp only [shown, fields, cut, List.cons_lt_cons_iff, List.not_lt_nil, and_false, or_false]
  omega

/-- Moments are cut down to the same just if they belong to one millisecond. -/
theorem cut_eq_iff {a b : Moment} (ha : a.Valid) (hb : b.Valid) :
    a.cut = b.cut ↔ a.elapsed / 1000 = b.elapsed / 1000 := by
  have helapsed : a.cut.elapsed = b.cut.elapsed ↔ a.cut.fields = b.cut.fields :=
    eq_iff_of_lt_iff (elapsed_lt_iff ha.cut hb.cut) (elapsed_lt_iff hb.cut ha.cut)
  rw [← fields_injective.eq_iff, ← helapsed, elapsed_cut, elapsed_cut]
  omega

/-- Moments have one stamp just if they are cut down to the same. -/
theorem stamp_eq_iff {a b : Moment} (ha : a.Valid) (hb : b.Valid) :
    a.stamp = b.stamp ↔ a.cut = b.cut := by
  have hlt := (stamp_lt_iff ha hb).trans (shown_lt_iff a b)
  have hgt := (stamp_lt_iff hb ha).trans (shown_lt_iff b a)
  rw [eq_iff_of_lt_iff hlt hgt, fields_injective.eq_iff]

end Moment

/-! ## The names of files -/

namespace Dump

/-- Names that differ in stamps of one length are ordered as the stamps are. -/
theorem name_lt_iff (before after : String) {stamp other : String}
    (h : stamp.length = other.length) :
    before ++ stamp ++ after < before ++ other ++ after ↔ stamp < other := by
  have hlength : stamp.toList.length = other.toList.length := h
  rw [String.lt_iff_toList_lt, String.lt_iff_toList_lt]
  simp only [String.toList_append, List.append_assoc]
  rw [append_lt_append_iff rfl, append_lt_append_iff hlength]
  simp

/-- Dumps whose stamps name different files stand side by side. -/
theorem record_apart {stamp other : String} (hdebug : debugFile stamp ≠ debugFile other)
    (hresult : resultFile stamp ≠ resultFile other) (source later : String)
    (result laterResult : AnalysisResult) :
    record (files stamp source result) other later laterResult =
      files stamp source result ++ files other later laterResult := by
  have hcross : resultFile stamp ≠ debugFile other := (debugFile_ne_resultFile other).symm
  simp [record, write, files, hdebug, hresult, hcross, debugFile_ne_resultFile]

end Dump

/-- Stamps sort like time. For moments of the calendar the order of the stamps is the order in time
of the moments cut down to milliseconds, which is also the order of their fields, and the stamps are
equal just if these are. The files of dumps, by their names, sort in the same way, and of two dumps
the first is lost just if both were made in the same millisecond. -/
theorem stamps_sort_like_time {a b : Moment} (ha : a.Valid) (hb : b.Valid) :
    (a.stamp < b.stamp ↔ a.cut.elapsed < b.cut.elapsed) ∧
      (a.stamp < b.stamp ↔ a.cut.fields < b.cut.fields) ∧
      (a.stamp = b.stamp ↔ a.cut = b.cut) ∧
      (∀ file ∈ [Dump.debugFile, Dump.resultFile],
        (file a.stamp < file b.stamp ↔ a.cut.elapsed < b.cut.elapsed) ∧
          (file a.stamp = file b.stamp ↔ a.elapsed / 1000 = b.elapsed / 1000)) ∧
      ∀ (source later : String) (result laterResult : AnalysisResult),
        Dump.record (Dump.record [] a.stamp source result) b.stamp later laterResult =
          if a.elapsed / 1000 = b.elapsed / 1000 then Dump.files b.stamp later laterResult
          else Dump.files a.stamp source result ++ Dump.files b.stamp later laterResult := by
  have hcut : a.cut.elapsed < b.cut.elapsed ↔ a.cut.fields < b.cut.fields :=
    Moment.elapsed_lt_iff ha.cut hb.cut
  have hlt : a.stamp < b.stamp ↔ a.cut.fields < b.cut.fields :=
    (Moment.stamp_lt_iff ha hb).trans (Moment.shown_lt_iff a b)
  have heq := Moment.stamp_eq_iff ha hb
  have hlength : a.stamp.length = b.stamp.length := by
    rw [Moment.length_stamp ha, Moment.length_stamp hb]
  have hname (before : String) :
      (before ++ a.stamp ++ ".json" < before ++ b.stamp ++ ".json" ↔
        a.cut.elapsed < b.cut.elapsed) ∧
      (before ++ a.stamp ++ ".json" = before ++ b.stamp ++ ".json" ↔
        a.elapsed / 1000 = b.elapsed / 1000) := by
    have hforth := Dump.name_lt_iff before ".json" hlength
    have hback := Dump.name_lt_iff before ".json" hlength.symm
    rw [eq_iff_of_lt_iff hforth hback, hforth, heq, Moment.cut_eq_iff ha hb]
    exact ⟨hlt.trans hcut.symm, Iff.rfl⟩
  have hdebug := hname "debug_"
  have hresult := hname "analysis_result_"
  refine ⟨hlt.trans hcut.symm, hlt, heq, ?_, ?_⟩
  · intro file hfile
    rcases List.mem_pair.mp hfile with rfl | rfl
    · exact hdebug
    · exact hresult
  · intro source later result laterResult
    rw [Dump.record_empty]
    split
    next hsame =>
      have hstamp : a.stamp = b.stamp := heq.mpr ((Moment.cut_eq_iff ha hb).mpr hsame)
      rw [hstamp, Dump.record_files]
    next hother =>
      exact Dump.record_apart (mt hdebug.2.mp hother) (mt hresult.2.mp hother) _ _ _ _

/-- The last microsecond of a leap day and the beginning of the next day. -/
theorem stamps_sort_leap_day :
    let a : Moment := ⟨2024, 2, 29, 23, 59, 59, 999999⟩
    let b : Moment := ⟨2024, 3, 1, 0, 0, 0, 0⟩
    a.Valid ∧ b.Valid ∧ a.cut.fields < b.cut.fields ∧ a.stamp < b.stamp := by
  intro a b
  have ha : a.Valid := by decide
  have hb : b.Valid := by decide
  have hfields : a.cut.fields < b.cut.fields := by decide
  exact ⟨ha, hb, hfields, (stamps_sort_like_time ha hb).2.1.mpr hfields⟩

end CrateAnalysis
