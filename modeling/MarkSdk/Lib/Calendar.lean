import Mathlib.Algebra.BigOperators.Intervals
import Mathlib.Algebra.Order.BigOperators.Group.Finset
import Mathlib.Data.Nat.Find
import Mathlib.Order.Monotone.Basic

/-!
The proleptic Gregorian calendar of the years 1 to 9999.

Days are numbered from 1 January of the year 1, which is a Monday. A number is
in the last year, and there in the last month, that begins before it. Dates are
in the order of their numbers (`Date.le_iff_ordinal_le`), and every number from 1
to `maxOrdinal` is a date's (`Date.ordinal_ofOrdinal`).
-/

namespace MarkSdk.Lib

/-! ### Consecutive blocks -/

/-- The last of the blocks up to `bound` that begins before the `n`-th place;
`before k` places come before block `k`. -/
def blockOf (before : Nat → Nat) (bound n : Nat) : Nat :=
  Nat.findGreatest (fun k => before k < n) bound

section Blocks

variable {before : Nat → Nat} {bound n k : Nat}

theorem blockOf_le : blockOf before bound n ≤ bound := Nat.findGreatest_le bound

theorem before_blockOf_lt (hk : k ≤ bound) (hn : before k < n) :
    before (blockOf before bound n) < n :=
  Nat.findGreatest_spec (P := fun k => before k < n) hk hn

theorem le_blockOf (hk : k ≤ bound) (hn : before k < n) : k ≤ blockOf before bound n :=
  Nat.le_findGreatest hk hn

theorem le_before_blockOf_succ (hn : n ≤ before (bound + 1)) :
    n ≤ before (blockOf before bound n + 1) := by
  by_contra hlt
  rw [not_le] at hlt
  have hle : blockOf before bound n ≤ bound := blockOf_le
  rcases Nat.lt_or_eq_of_le hle with hnext | hlast
  · have := le_blockOf (Nat.succ_le_of_lt hnext) hlt
    omega
  · rw [hlast] at hlt
    omega

end Blocks

/-! ### Years and months -/

def IsLeap (year : Nat) : Prop := year % 4 = 0 ∧ (year % 100 ≠ 0 ∨ year % 400 = 0)

instance (year : Nat) : Decidable (IsLeap year) := inferInstanceAs (Decidable (_ ∧ _))

def yearDays (year : Nat) : Nat := if IsLeap year then 366 else 365

/-- The days of a month, `calendar.monthrange(year, month)[1]`. -/
def monthDays (year month : Nat) : Nat :=
  if month = 2 then if IsLeap year then 29 else 28
  else if month = 4 ∨ month = 6 ∨ month = 9 ∨ month = 11 then 30
  else 31

def daysBeforeYear (year : Nat) : Nat :=
  (year - 1) * 365 + (year - 1) / 4 - (year - 1) / 100 + (year - 1) / 400

def daysBeforeMonth (year month : Nat) : Nat := ∑ k ∈ Finset.Ico 1 month, monthDays year k

/-- The days from 1 January 1 to 31 December 9999. -/
def maxOrdinal : Nat := 3652059

section Years

variable {year month k l : Nat}

theorem monthDays_pos : 0 < monthDays year month := by
  rw [monthDays]
  split_ifs <;> omega

theorem monthDays_le : monthDays year month ≤ 31 := by
  rw [monthDays]
  split_ifs <;> omega

theorem isLeap_iff_dvd : IsLeap year ↔ 4 ∣ year ∧ (¬ 100 ∣ year ∨ 400 ∣ year) := by
  rw [IsLeap, Nat.dvd_iff_mod_eq_zero, Nat.dvd_iff_mod_eq_zero, Nat.dvd_iff_mod_eq_zero]

theorem daysBeforeYear_succ (h : 1 ≤ year) :
    daysBeforeYear (year + 1) = daysBeforeYear year + yearDays year := by
  obtain ⟨y, rfl⟩ : ∃ y, year = y + 1 := ⟨year - 1, by omega⟩
  rw [daysBeforeYear, daysBeforeYear, yearDays, Nat.add_sub_cancel, Nat.add_sub_cancel,
    Nat.succ_div, Nat.succ_div, Nat.succ_div, Nat.add_mul]
  -- a year that 400 divides is one that 100 divides, and that one that 4 divides
  have h400 : 400 ∣ y + 1 → 100 ∣ y + 1 := Nat.dvd_trans (by decide)
  have h100 : 100 ∣ y + 1 → 4 ∣ y + 1 := Nat.dvd_trans (by decide)
  have hle : y / 100 ≤ y / 4 := Nat.div_le_div_left (by omega) (by omega)
  have hleap := @isLeap_iff_dvd (y + 1)
  generalize y / 100 = hundreds, y / 4 = fours at hle ⊢
  generalize y / 400 = cycles
  by_cases h4 : 4 ∣ y + 1
  · by_cases hc : 100 ∣ y + 1
    · by_cases hd : 400 ∣ y + 1
      · rw [if_pos h4, if_pos hc, if_pos hd, if_pos (hleap.mpr ⟨h4, .inr hd⟩)]
        omega
      · rw [if_pos h4, if_pos hc, if_neg hd, if_neg (by tauto)]
        omega
    · rw [if_pos h4, if_neg hc, if_neg (mt h400 hc), if_pos (hleap.mpr ⟨h4, .inl hc⟩)]
      omega
  · have hc := mt h100 h4
    rw [if_neg h4, if_neg hc, if_neg (mt h400 hc), if_neg (by tauto)]
    omega

theorem daysBeforeYear_mono (hk : 1 ≤ k) (h : k ≤ l) : daysBeforeYear k ≤ daysBeforeYear l := by
  induction l, h using Nat.le_induction with
  | base => exact le_rfl
  | succ l hl ih =>
      rw [daysBeforeYear_succ (hk.trans hl)]
      exact ih.trans (Nat.le_add_right _ _)

theorem daysBeforeYear_bound : daysBeforeYear (9999 + 1) = maxOrdinal := rfl

theorem daysBeforeMonth_succ (h : 1 ≤ month) :
    daysBeforeMonth year (month + 1) = daysBeforeMonth year month + monthDays year month :=
  Finset.sum_Ico_succ_top h _

theorem daysBeforeMonth_mono (h : k ≤ l) : daysBeforeMonth year k ≤ daysBeforeMonth year l :=
  Finset.sum_le_sum_of_subset (Finset.Ico_subset_Ico_right h)

/-- The months make up the year. -/
theorem daysBeforeMonth_bound : daysBeforeMonth year (12 + 1) = yearDays year := by
  rw [daysBeforeMonth, yearDays, Finset.sum_Ico_eq_sum_range]
  simp only [Finset.sum_range_succ, Finset.sum_range_zero, monthDays]
  by_cases hleap : IsLeap year
  · simp [hleap]
  · simp [hleap]

end Years

/-! ### Dates -/

@[ext]
structure Date : Type where
  year : Nat
  month : Nat
  day : Nat
  year_mem : 1 ≤ year ∧ year ≤ 9999
  month_mem : 1 ≤ month ∧ month ≤ 12
  day_mem : 1 ≤ day ∧ day ≤ monthDays year month
  deriving DecidableEq

namespace Date

/-- `date.toordinal` -/
def ordinal (d : Date) : Nat := daysBeforeYear d.year + daysBeforeMonth d.year d.month + d.day

/-- `date.weekday`, Monday is 0. -/
def weekday (d : Date) : Nat := (d.ordinal + 6) % 7

/-- By year, then by month, then by day. -/
instance : LE Date :=
  ⟨fun a b => a.year < b.year ∨ a.year = b.year ∧
    (a.month < b.month ∨ a.month = b.month ∧ a.day ≤ b.day)⟩

theorem le_def {a b : Date} : a ≤ b ↔ a.year < b.year ∨ a.year = b.year ∧
    (a.month < b.month ∨ a.month = b.month ∧ a.day ≤ b.day) := Iff.rfl

instance (a b : Date) : Decidable (a ≤ b) := decidable_of_iff _ le_def.symm

variable (d : Date) {a b : Date}

theorem one_le_ordinal : 1 ≤ d.ordinal := by
  have := d.day_mem
  rw [ordinal]
  omega

/-- A date is not after the end of its month. -/
theorem ordinal_le_month :
    d.ordinal ≤ daysBeforeYear d.year + daysBeforeMonth d.year (d.month + 1) := by
  have := d.day_mem
  rw [ordinal, daysBeforeMonth_succ d.month_mem.1]
  omega

/-- A date is not after the end of its year. -/
theorem ordinal_le_year : d.ordinal ≤ daysBeforeYear (d.year + 1) := by
  have hmonth := d.ordinal_le_month
  have hyear : daysBeforeMonth d.year (d.month + 1) ≤ yearDays d.year :=
    daysBeforeMonth_bound ▸ daysBeforeMonth_mono (by have := d.month_mem; omega)
  rw [daysBeforeYear_succ d.year_mem.1]
  omega

theorem ordinal_le_max : d.ordinal ≤ maxOrdinal := by
  rw [← daysBeforeYear_bound]
  exact d.ordinal_le_year.trans
    (daysBeforeYear_mono (Nat.le_add_left _ _) (Nat.succ_le_succ d.year_mem.2))

theorem daysBeforeYear_lt : daysBeforeYear d.year < d.ordinal := by
  have := d.day_mem
  rw [ordinal]
  omega

theorem ordinal_lt_of_year_lt (h : a.year < b.year) : a.ordinal < b.ordinal :=
  calc a.ordinal ≤ daysBeforeYear (a.year + 1) := a.ordinal_le_year
    _ ≤ daysBeforeYear b.year := daysBeforeYear_mono (Nat.le_add_left _ _) h
    _ < b.ordinal := b.daysBeforeYear_lt

theorem ordinal_lt_of_month_lt (hyear : a.year = b.year) (h : a.month < b.month) :
    a.ordinal < b.ordinal := by
  have hday := b.day_mem
  calc a.ordinal ≤ daysBeforeYear a.year + daysBeforeMonth a.year (a.month + 1) :=
        a.ordinal_le_month
    _ ≤ daysBeforeYear b.year + daysBeforeMonth b.year b.month := by
        rw [hyear]
        exact Nat.add_le_add_left (daysBeforeMonth_mono h) _
    _ < b.ordinal := by
        rw [ordinal]
        omega

/-- Dates are in the order of their days. -/
theorem le_iff_ordinal_le : a ≤ b ↔ a.ordinal ≤ b.ordinal := by
  rw [le_def]
  rcases Nat.lt_trichotomy a.year b.year with hyear | hyear | hyear
  · have := ordinal_lt_of_year_lt hyear
    omega
  · rcases Nat.lt_trichotomy a.month b.month with hmonth | hmonth | hmonth
    · have := ordinal_lt_of_month_lt hyear hmonth
      omega
    · rw [ordinal, ordinal, hyear, hmonth]
      omega
    · have := ordinal_lt_of_month_lt hyear.symm hmonth
      omega
  · have := ordinal_lt_of_year_lt hyear
    omega

theorem ordinal_injective : Function.Injective ordinal := by
  intro a b hab
  have hle : a ≤ b := le_iff_ordinal_le.mpr hab.le
  have hge : b ≤ a := le_iff_ordinal_le.mpr hab.ge
  rw [le_def] at hle hge
  ext <;> omega

/-! ### The date of a day -/

section OfOrdinal

variable {n : Nat}

/-- The year of the `n`-th day. -/
def yearOf (n : Nat) : Nat := blockOf daysBeforeYear 9999 n

def monthOf (n : Nat) : Nat :=
  blockOf (daysBeforeMonth (yearOf n)) 12 (n - daysBeforeYear (yearOf n))

theorem yearOf_spec (h : 1 ≤ n ∧ n ≤ maxOrdinal) :
    (1 ≤ yearOf n ∧ yearOf n ≤ 9999) ∧ daysBeforeYear (yearOf n) < n ∧
      n ≤ daysBeforeYear (yearOf n) + yearDays (yearOf n) := by
  have hfirst : daysBeforeYear 1 < n := h.1
  have hone : 1 ≤ yearOf n := le_blockOf (by omega) hfirst
  refine ⟨⟨hone, blockOf_le⟩, before_blockOf_lt (by omega) hfirst, ?_⟩
  rw [← daysBeforeYear_succ hone]
  exact le_before_blockOf_succ h.2

theorem monthOf_spec (h : 1 ≤ n ∧ n ≤ maxOrdinal) :
    (1 ≤ monthOf n ∧ monthOf n ≤ 12) ∧
      daysBeforeYear (yearOf n) + daysBeforeMonth (yearOf n) (monthOf n) < n ∧
      n ≤ daysBeforeYear (yearOf n) + daysBeforeMonth (yearOf n) (monthOf n) +
        monthDays (yearOf n) (monthOf n) := by
  obtain ⟨-, hbefore, hafter⟩ := yearOf_spec h
  have hfirst : daysBeforeMonth (yearOf n) 1 < n - daysBeforeYear (yearOf n) := by
    rw [daysBeforeMonth, Finset.Ico_self, Finset.sum_empty]
    omega
  have hone : 1 ≤ monthOf n := le_blockOf (by omega) hfirst
  have hlow : daysBeforeMonth (yearOf n) (monthOf n) < n - daysBeforeYear (yearOf n) :=
    before_blockOf_lt (by omega) hfirst
  have hhigh : n - daysBeforeYear (yearOf n) ≤
      daysBeforeMonth (yearOf n) (monthOf n + 1) := by
    refine le_before_blockOf_succ ?_
    rw [daysBeforeMonth_bound]
    omega
  rw [daysBeforeMonth_succ hone] at hhigh
  exact ⟨⟨hone, blockOf_le⟩, by omega, by omega⟩

/-- `date.fromordinal` -/
def ofOrdinal (n : Nat) (h : 1 ≤ n ∧ n ≤ maxOrdinal) : Date where
  year := yearOf n
  month := monthOf n
  day := n - daysBeforeYear (yearOf n) - daysBeforeMonth (yearOf n) (monthOf n)
  year_mem := (yearOf_spec h).1
  month_mem := (monthOf_spec h).1
  day_mem := by
    have := (monthOf_spec h).2
    omega

@[simp] theorem ordinal_ofOrdinal (h : 1 ≤ n ∧ n ≤ maxOrdinal) : (ofOrdinal n h).ordinal = n := by
  have := (monthOf_spec h).2
  simp only [ordinal, ofOrdinal]
  omega

end OfOrdinal

/-! ### Weeks -/

/-- The first day of the calendar is a Monday, so that no week begins before it. -/
theorem weekday_lt_ordinal : d.weekday < d.ordinal := by
  have := d.one_le_ordinal
  rw [weekday]
  omega

end Date

end MarkSdk.Lib
