import MarkSdk.Retrieval.DateParsing

/-!
Which dates and ranges there are.

A date can be shifted as long as it stays within the calendar, and the ranges
around it are there, but for the week at the end of the calendar, whose Sunday
is not. A range never ends before it begins.
-/

namespace MarkSdk.DateParsing

open Lib

section Except

variable {α β : Type} {x : Except DateError α} {f : α → Except DateError β} {b : β}

theorem bind_eq_ok : (x >>= f) = .ok b ↔ ∃ a, x = .ok a ∧ f a = .ok b := by
  cases x with
  | error e => simp [bind, Except.bind]
  | ok a => simp [bind, Except.bind]

theorem exists_bind_iff : (∃ b, (x >>= f) = .ok b) ↔ ∃ a, x = .ok a ∧ ∃ b, f a = .ok b := by
  simp only [bind_eq_ok]
  exact exists_comm.trans (exists_congr fun a => exists_and_left)

/-- If it fails then with the error that `_resolve` takes for no date. -/
def Guarded (x : Except DateError α) : Prop := ∀ e, x = .error e → e = .valueError

theorem guarded_ok {a : α} : Guarded (.ok a : Except DateError α) := fun _ h => nomatch h

theorem guarded_valueError : Guarded (.error .valueError : Except DateError α) := by
  rintro e h
  cases h
  rfl

theorem guarded_bind_iff :
    Guarded (x >>= f) ↔ Guarded x ∧ ∀ a, x = .ok a → Guarded (f a) := by
  cases x with
  | error e =>
      constructor
      · intro h
        exact ⟨fun e' he' => h e' (by cases he'; rfl), fun _ ha => nomatch ha⟩
      · rintro ⟨h, -⟩ e' he'
        exact h e' (by cases he'; rfl)
  | ok a =>
      constructor
      · intro h
        exact ⟨guarded_ok, fun a' ha' => by cases ha'; exact h⟩
      · rintro ⟨-, h⟩
        exact h a rfl

end Except

/-! ### Dates -/

/-- There is such a date. -/
def IsDate (year : Int) (month day : Nat) : Prop :=
  (1 ≤ year ∧ year ≤ 9999) ∧ (1 ≤ month ∧ month ≤ 12) ∧
    1 ≤ day ∧ day ≤ monthDays year.toNat month

section Dates

variable {year n : Int} {month day count : Nat} {d e : Date} {range : DateRange}

theorem mkDate_eq_ok (h : mkDate year month day = .ok d) :
    (d.year : Int) = year ∧ d.month = month ∧ d.day = day := by
  rw [mkDate] at h
  split at h
  case isTrue => cases h
  case isFalse =>
    split at h
    case isTrue hdate =>
      cases h
      refine ⟨?_, rfl, rfl⟩
      simp only
      omega
    case isFalse => cases h

theorem exists_mkDate_iff : (∃ d, mkDate year month day = .ok d) ↔ IsDate year month day := by
  constructor
  · rintro ⟨d, h⟩
    obtain ⟨rfl, rfl, rfl⟩ := mkDate_eq_ok h
    have hyear := d.year_mem
    exact ⟨by omega, d.month_mem, d.day_mem⟩
  · rintro ⟨hyear, hmonth, hday⟩
    rw [mkDate, if_neg (by omega), dif_pos ⟨by omega, hmonth, hday⟩]
    exact ⟨_, rfl⟩

theorem guarded_mkDate (h : -2 ^ 31 ≤ year ∧ year < 2 ^ 31) : Guarded (mkDate year month day) := by
  rw [mkDate, if_neg (by omega)]
  split
  · exact guarded_ok
  · exact guarded_valueError

theorem plusDays_eq_ok (h : plusDays d n = .ok e) : (e.ordinal : Int) = d.ordinal + n := by
  rw [plusDays] at h
  split at h
  case isTrue => cases h
  case isFalse =>
    split at h
    case isTrue hday =>
      cases h
      rw [Date.ordinal_ofOrdinal]
      omega
    case isFalse => cases h

theorem exists_plusDays_iff :
    (∃ e, plusDays d n = .ok e) ↔ 1 ≤ d.ordinal + n ∧ d.ordinal + n ≤ maxOrdinal := by
  constructor
  · rintro ⟨e, h⟩
    rw [← plusDays_eq_ok h]
    have hone := e.one_le_ordinal
    have hmax := e.ordinal_le_max
    omega
  · intro h
    have hone := d.one_le_ordinal
    have hmax := d.ordinal_le_max
    rw [plusDays, if_neg (by rw [maxOrdinal] at h hmax; omega), dif_pos (by omega)]
    exact ⟨_, rfl⟩

/-! ### Ranges -/

theorem le_refl_date : d ≤ d := Date.le_iff_ordinal_le.mpr le_rfl

/-- The months of a range end in the year in which they begin. -/
theorem exists_monthsRange_iff (hcount : 1 ≤ count) :
    (∃ range, monthsRange year month count = .ok range) ↔
      IsDate year month 1 ∧ month + count - 1 ≤ 12 := by
  rw [monthsRange, exists_bind_iff]
  constructor
  · rintro ⟨first, hfirst, range, hrange⟩
    obtain ⟨final, hfinal, -⟩ := bind_eq_ok.mp hrange
    exact ⟨exists_mkDate_iff.mp ⟨first, hfirst⟩, (exists_mkDate_iff.mp ⟨final, hfinal⟩).2.1.2⟩
  · rintro ⟨hdate, hlast⟩
    obtain ⟨first, hfirst⟩ := exists_mkDate_iff.mpr hdate
    obtain ⟨hyear, hmonth, -⟩ := hdate
    obtain ⟨final, hfinal⟩ := exists_mkDate_iff.mpr
      (⟨hyear, ⟨by omega, hlast⟩, monthDays_pos, le_rfl⟩ :
        IsDate year (month + count - 1) (monthDays year.toNat (month + count - 1)))
    exact ⟨first, hfirst, (first, final), bind_eq_ok.mpr ⟨final, hfinal, rfl⟩⟩

theorem monthsRange_le (hcount : 1 ≤ count) (h : monthsRange year month count = .ok range) :
    range.1 ≤ range.2 := by
  obtain ⟨first, hfirst, h⟩ := bind_eq_ok.mp h
  obtain ⟨final, hfinal, h⟩ := bind_eq_ok.mp h
  cases h
  obtain ⟨hyear, hmonth, hday⟩ := mkDate_eq_ok hfirst
  obtain ⟨hyear', hmonth', hday'⟩ := mkDate_eq_ok hfinal
  have hpos := final.day_mem.1
  rw [Date.le_def]
  simp only
  omega

theorem guarded_monthsRange (h : -2 ^ 31 ≤ year ∧ year < 2 ^ 31) :
    Guarded (monthsRange year month count) :=
  guarded_bind_iff.mpr ⟨guarded_mkDate h, fun _ _ =>
    guarded_bind_iff.mpr ⟨guarded_mkDate h, fun _ _ => guarded_ok⟩⟩

theorem exists_yearRange_iff :
    (∃ range, yearRange year = .ok range) ↔ 1 ≤ year ∧ year ≤ 9999 := by
  rw [yearRange, exists_bind_iff]
  constructor
  · rintro ⟨first, hfirst, -⟩
    exact (exists_mkDate_iff.mp ⟨first, hfirst⟩).1
  · intro hyear
    obtain ⟨first, hfirst⟩ := exists_mkDate_iff.mpr
      (⟨hyear, by omega, le_rfl, monthDays_pos⟩ : IsDate year 1 1)
    obtain ⟨final, hfinal⟩ := exists_mkDate_iff.mpr
      (⟨hyear, by omega, by omega, le_rfl⟩ : IsDate year 12 31)
    exact ⟨first, hfirst, (first, final), bind_eq_ok.mpr ⟨final, hfinal, rfl⟩⟩

theorem yearRange_le (h : yearRange year = .ok range) : range.1 ≤ range.2 := by
  obtain ⟨first, hfirst, h⟩ := bind_eq_ok.mp h
  obtain ⟨final, hfinal, h⟩ := bind_eq_ok.mp h
  cases h
  obtain ⟨hyear, hmonth, hday⟩ := mkDate_eq_ok hfirst
  obtain ⟨hyear', hmonth', hday'⟩ := mkDate_eq_ok hfinal
  rw [Date.le_def]
  simp only
  omega

theorem guarded_yearRange (h : -2 ^ 31 ≤ year ∧ year < 2 ^ 31) : Guarded (yearRange year) :=
  guarded_bind_iff.mpr ⟨guarded_mkDate h, fun _ _ =>
    guarded_bind_iff.mpr ⟨guarded_mkDate h, fun _ _ => guarded_ok⟩⟩

theorem isDate_month (d : Date) : IsDate d.year d.month 1 :=
  ⟨by have := d.year_mem; omega, d.month_mem, le_rfl, monthDays_pos⟩

end Dates

/-! ### Moving a date -/

/-- The date `n` units away is one of the calendar. -/
def Reaches (ref : Date) (unit : String) (n : Int) : Prop :=
  if unit = "day" then 1 ≤ ref.ordinal + n ∧ ref.ordinal + n ≤ maxOrdinal
  else if unit = "week" then 1 ≤ ref.ordinal + 7 * n ∧ ref.ordinal + 7 * n ≤ maxOrdinal
  else ∃ months, unitMonths.lookup unit = some months ∧
    12 ≤ ref.year * 12 + ref.month - 1 + n * months ∧
      ref.year * 12 + ref.month - 1 + n * months < 120000

/-- The Sunday of the week `n` units away is one of the calendar, if the unit is
the week. -/
def WeekEnds (ref : Date) (unit : String) (n : Int) : Prop :=
  unit = "week" → ref.ordinal + 7 * n - ref.weekday + 6 ≤ maxOrdinal

section Moving

variable {ref d : Date} {unit rel : String} {n : Int} {target : Nat} {range : DateRange}

theorem lookUp_eq_ok {α : Type} {table : List (String × α)} {key : String} {a : α} :
    lookUp table key = .ok a ↔ table.lookup key = some a := by
  rw [lookUp]
  split
  case h_1 h => simp [h]
  case h_2 a' h => simp [h]

/-- The longer units, in months. -/
theorem shift_months (hday : unit ≠ "day") (hweek : unit ≠ "week") :
    shift ref unit n = .ok d ↔ ∃ months, unitMonths.lookup unit = some months ∧
      mkDate ((ref.year * 12 + ref.month - 1 + n * months) / 12)
        (((ref.year * 12 + ref.month - 1 + n * months) % 12).toNat + 1)
        (min ref.day (monthDays ((ref.year * 12 + ref.month - 1 + n * months) / 12).toNat
          (((ref.year * 12 + ref.month - 1 + n * months) % 12).toNat + 1))) = .ok d := by
  rw [shift, if_neg hday, if_neg hweek, bind_eq_ok]
  simp only [lookUp_eq_ok]

theorem exists_shift_iff : (∃ d, shift ref unit n = .ok d) ↔ Reaches ref unit n := by
  by_cases hday : unit = "day"
  · rw [shift, if_pos hday, Reaches, if_pos hday]
    exact exists_plusDays_iff
  · by_cases hweek : unit = "week"
    · rw [shift, if_neg hday, if_pos hweek, Reaches, if_neg hday, if_pos hweek]
      exact exists_plusDays_iff
    · simp only [shift_months hday hweek]
      rw [Reaches, if_neg hday, if_neg hweek, exists_comm]
      refine exists_congr fun months => ?_
      rw [exists_and_left, exists_mkDate_iff]
      refine and_congr_right fun _ => ?_
      have hone := ref.day_mem.1
      have hpos := @monthDays_pos
      rw [IsDate]
      constructor
      · rintro ⟨hyear, -, -⟩
        omega
      · intro h
        refine ⟨by omega, by omega, le_min hone (hpos ..), min_le_right _ _⟩

theorem shift_week (h : shift ref "week" n = .ok d) : (d.ordinal : Int) = ref.ordinal + 7 * n :=
  plusDays_eq_ok h

/-- Going back does not lead to a later date. -/
theorem shift_le (hn : n ≤ 0) (h : shift ref unit n = .ok d) : d ≤ ref := by
  by_cases hday : unit = "day"
  · rw [shift, if_pos hday] at h
    have := plusDays_eq_ok h
    exact Date.le_iff_ordinal_le.mpr (by omega)
  · by_cases hweek : unit = "week"
    · rw [shift, if_neg hday, if_pos hweek] at h
      have := plusDays_eq_ok h
      exact Date.le_iff_ordinal_le.mpr (by omega)
    · obtain ⟨months, hmonths, hdate⟩ := (shift_months hday hweek).mp h
      have hpos : 0 ≤ months := by
        obtain ⟨front, back, hsplit, -⟩ := List.lookup_eq_some_iff.mp hmonths
        have hmem : (unit, months) ∈ unitMonths :=
          hsplit ▸ List.mem_append_right _ List.mem_cons_self
        simp only [unitMonths, List.mem_cons, Prod.mk.injEq, List.not_mem_nil, or_false] at hmem
        omega
      have hback : n * months ≤ 0 := Int.mul_nonpos_of_nonpos_of_nonneg hn hpos
      generalize n * months = back at hdate hback
      obtain ⟨hyear, hmonth, hd⟩ := mkDate_eq_ok hdate
      have hmem := ref.month_mem
      have hmin : d.day ≤ ref.day := hd ▸ min_le_left _ _
      rw [Date.le_def]
      omega

theorem exists_unitRange_iff : (∃ range, unitRange d unit = .ok range) ↔
    (unit = "week" → (d.ordinal : Int) - d.weekday + 6 ≤ maxOrdinal) := by
  rw [unitRange]
  by_cases hday : unit = "day"
  · rw [if_pos hday, hday]
    exact ⟨fun _ h => absurd h (by decide), fun _ => ⟨_, rfl⟩⟩
  · rw [if_neg hday]
    by_cases hweek : unit = "week"
    · rw [if_pos hweek, exists_bind_iff]
      have hlow := d.weekday_lt_ordinal
      have hhigh := d.ordinal_le_max
      constructor
      · rintro ⟨start, hstart, range, h⟩ -
        obtain ⟨final, hfinal, -⟩ := bind_eq_ok.mp h
        have hlast := (exists_plusDays_iff.mp ⟨final, hfinal⟩).2
        rw [plusDays_eq_ok hstart] at hlast
        exact hlast
      · intro h
        obtain ⟨start, hstart⟩ := (exists_plusDays_iff (d := d) (n := -d.weekday)).mpr (by omega)
        have hday := plusDays_eq_ok hstart
        obtain ⟨final, hfinal⟩ := (exists_plusDays_iff (d := start) (n := 6)).mpr
          (by have := h hweek; omega)
        exact ⟨start, hstart, (start, final), bind_eq_ok.mpr ⟨final, hfinal, rfl⟩⟩
    · rw [if_neg hweek]
      refine ⟨fun _ h => absurd h hweek, fun _ => ?_⟩
      have hmonth := d.month_mem
      split
      · exact (exists_monthsRange_iff le_rfl).mpr ⟨isDate_month d, by omega⟩
      · split
        · refine (exists_monthsRange_iff (by omega)).mpr ⟨⟨(isDate_month d).1, ?_, le_rfl,
            monthDays_pos⟩, ?_⟩
          · omega
          · omega
        · exact exists_yearRange_iff.mpr (isDate_month d).1

theorem unitRange_le (h : unitRange d unit = .ok range) : range.1 ≤ range.2 := by
  rw [unitRange] at h
  split at h
  · cases h
    exact le_refl_date
  · split at h
    · obtain ⟨start, hstart, h⟩ := bind_eq_ok.mp h
      obtain ⟨final, hfinal, h⟩ := bind_eq_ok.mp h
      cases h
      have hsunday := plusDays_eq_ok hfinal
      refine Date.le_iff_ordinal_le.mpr ?_
      simp only
      omega
    · split at h
      · exact monthsRange_le le_rfl h
      · split at h
        · exact monthsRange_le (by omega) h
        · exact yearRange_le h

/-- The day of the week that is meant is one of the calendar. -/
def Near (ref : Date) (target : Nat) (rel : String) : Prop :=
  if rel = "last" ∨ rel = "previous" then
    1 ≤ (ref.ordinal : Int) - (((ref.weekday : Int) - target - 1) % 7 + 1)
  else if rel = "next" ∨ rel = "coming" then
    (ref.ordinal : Int) + (((target : Int) - ref.weekday - 1) % 7 + 1) ≤ maxOrdinal
  else (ref.ordinal : Int) - ref.weekday + target ≤ maxOrdinal

theorem exists_weekdayNear_iff :
    (∃ d, weekdayNear ref target rel = .ok d) ↔ Near ref target rel := by
  have hlow := ref.weekday_lt_ordinal
  have hone := ref.one_le_ordinal
  have hmax := ref.ordinal_le_max
  rw [weekdayNear, Near]
  split
  · rw [exists_plusDays_iff]
    omega
  · split
    · rw [exists_plusDays_iff]
      omega
    · rw [exists_bind_iff]
      constructor
      · rintro ⟨monday, hmonday, h⟩
        have := (exists_plusDays_iff.mp h).2
        rw [plusDays_eq_ok hmonday] at this
        omega
      · intro h
        obtain ⟨monday, hmonday⟩ :=
          (exists_plusDays_iff (d := ref) (n := -ref.weekday)).mpr (by omega)
        have hday := plusDays_eq_ok hmonday
        exact ⟨monday, hmonday, exists_plusDays_iff.mpr (by omega)⟩

end Moving

end MarkSdk.DateParsing
