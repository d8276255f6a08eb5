import MarkSdk.Lib.Calendar
import MarkSdk.Lib.FixedWidth
import MarkSdk.Store.Facts

/-!
The texts that times are written as.

The store writes a time as the `isoformat` of its UTC time and lets SQL compare
the texts. A text without a fraction is shorter: where another one goes on with
the point of its fraction, it goes on with the sign of the offset, which comes
first. So the order of the texts is the order of the instants
(`isoText_lt_iff`), and the readers may be stated with instants.
-/

namespace MarkSdk

open Lib

/-! ### UTC times -/

/-- A `datetime` in UTC. -/
structure UtcTime : Type where
  date : Date
  hour : Nat
  minute : Nat
  second : Nat
  microsecond : Nat
  hour_lt : hour < 24
  minute_lt : minute < 60
  second_lt : second < 60
  microsecond_lt : microsecond < 1000000

/-- The number of 1 January 1970. -/
def epochOrdinal : Int := 719163

def dayMicroseconds : Int := 86400000000

namespace UtcTime

/-- Microseconds since the epoch. -/
def instant (u : UtcTime) : Int :=
  (u.date.ordinal - epochOrdinal) * dayMicroseconds +
    (((u.hour * 60 + u.minute) * 60 + u.second) * 1000000 + u.microsecond : Nat)

/-- `YYYY-MM-DD` -/
def dateText (d : Date) : List Char :=
  pad 4 d.year ++ '-' :: (pad 2 d.month ++ '-' :: pad 2 d.day)

/-- `HH:MM:SS` -/
def clockText (u : UtcTime) : List Char :=
  pad 2 u.hour ++ ':' :: (pad 2 u.minute ++ ':' :: pad 2 u.second)

/-- The fraction, unless there is none, and the offset. -/
def fractionText (microsecond : Nat) : List Char :=
  (if microsecond = 0 then [] else '.' :: pad 6 microsecond) ++ ['+', '0', '0', ':', '0', '0']

def isoformat (u : UtcTime) : String :=
  String.ofList (dateText u.date ++ 'T' :: (u.clockText ++ fractionText u.microsecond))

end UtcTime

/-- The UTC times of the years 1 to 9999. -/
def InYears (t : Int) : Prop :=
  1 ≤ t / dayMicroseconds + epochOrdinal ∧ t / dayMicroseconds + epochOrdinal ≤ maxOrdinal

instance (t : Int) : Decidable (InYears t) := inferInstanceAs (Decidable (_ ∧ _))

/-- The UTC time of an instant: its day, and the fields of the rest. -/
def UtcTime.ofInstant (t : Int) (h : InYears t) : UtcTime where
  date := Date.ofOrdinal (t / dayMicroseconds + epochOrdinal).toNat (by
    rw [InYears] at h
    omega)
  hour := (t % dayMicroseconds).toNat / 3600000000
  minute := (t % dayMicroseconds).toNat / 60000000 % 60
  second := (t % dayMicroseconds).toNat / 1000000 % 60
  microsecond := (t % dayMicroseconds).toNat % 1000000
  hour_lt := by
    rw [dayMicroseconds]
    omega
  minute_lt := Nat.mod_lt _ (by omega)
  second_lt := Nat.mod_lt _ (by omega)
  microsecond_lt := Nat.mod_lt _ (by omega)

/-- `moment.astimezone(timezone.utc).isoformat()` of an instant. Outside of the
calendar `astimezone` raises, and there is no text. -/
def isoText (t : Int) : String := if h : InYears t then (UtcTime.ofInstant t h).isoformat else ""

/-- `valid_from <= ? AND (valid_to IS NULL OR valid_to > ?)`, on texts -/
def textCovers (stamp validFrom : String) (validTo : Option String) : Bool :=
  decide (validFrom ≤ stamp) && validTo.all fun stop => decide (stamp < stop)

/-! ### The order of the texts -/

namespace UtcTime

variable {u v : UtcTime} {a b : Date} {m n : Nat} {s t : List Char}

theorem dateText_length (a : Date) : (dateText a).length = 10 := by
  simp [dateText]

theorem clockText_length (u : UtcTime) : u.clockText.length = 8 := by
  simp [clockText]

theorem dateText_lt (h : a.ordinal < b.ordinal) : dateText a < dateText b := by
  have hlt : ¬ b ≤ a := fun hle => absurd (Date.le_iff_ordinal_le.mp hle) (by omega)
  rw [Date.le_def] at hlt
  have hyear := b.year_mem
  have hmonth := b.month_mem
  have hday := b.day_mem.2.trans monthDays_le
  rw [dateText, dateText]
  rcases Nat.lt_trichotomy a.year b.year with h1 | h1 | h1
  · exact append_lt_append_of_lt (by simp) (pad_lt_pad h1 (by omega))
  · rw [h1]
    refine List.append_left_lt (List.cons_lt_cons_iff.mpr (.inr ⟨rfl, ?_⟩))
    rcases Nat.lt_trichotomy a.month b.month with h2 | h2 | h2
    · exact append_lt_append_of_lt (by simp) (pad_lt_pad h2 (by omega))
    · rw [h2]
      refine List.append_left_lt (List.cons_lt_cons_iff.mpr (.inr ⟨rfl, ?_⟩))
      exact pad_lt_pad (by omega) (by omega)
    · omega
  · omega

theorem clockText_lt (h : (u.hour * 60 + u.minute) * 60 + u.second <
    (v.hour * 60 + v.minute) * 60 + v.second) : u.clockText < v.clockText := by
  have hu := u.minute_lt
  have hu' := u.second_lt
  have hv := v.hour_lt
  have hv' := v.minute_lt
  have hv'' := v.second_lt
  rw [clockText, clockText]
  rcases Nat.lt_trichotomy u.hour v.hour with h1 | h1 | h1
  · exact append_lt_append_of_lt (by simp) (pad_lt_pad h1 (by omega))
  · rw [h1]
    refine List.append_left_lt (List.cons_lt_cons_iff.mpr (.inr ⟨rfl, ?_⟩))
    rcases Nat.lt_trichotomy u.minute v.minute with h2 | h2 | h2
    · exact append_lt_append_of_lt (by simp) (pad_lt_pad h2 (by omega))
    · rw [h2]
      refine List.append_left_lt (List.cons_lt_cons_iff.mpr (.inr ⟨rfl, ?_⟩))
      exact pad_lt_pad (by omega) (by omega)
    · omega
  · omega

theorem clockText_eq (h : (u.hour * 60 + u.minute) * 60 + u.second =
    (v.hour * 60 + v.minute) * 60 + v.second) : u.clockText = v.clockText := by
  have hu := u.minute_lt
  have hu' := u.second_lt
  have hv := v.minute_lt
  have hv' := v.second_lt
  rw [clockText, clockText, show u.hour = v.hour by omega, show u.minute = v.minute by omega,
    show u.second = v.second by omega]

/-- The sign of the offset comes before the point of a fraction. -/
theorem fractionText_lt (h : m < n) (hn : n < 1000000) : fractionText m < fractionText n := by
  have hpos : n ≠ 0 := by omega
  rw [fractionText, fractionText, if_neg hpos]
  by_cases hm : m = 0
  · rw [if_pos hm]
    exact List.cons_lt_cons_iff.mpr (.inl (by decide))
  · rw [if_neg hm, List.cons_append, List.cons_append]
    refine List.cons_lt_cons_iff.mpr (.inr ⟨rfl, ?_⟩)
    exact append_lt_append_of_lt (by simp) (pad_lt_pad h hn)

/-- A later time has a greater text. -/
theorem isoformat_lt (h : u.instant < v.instant) : u.isoformat < v.isoformat := by
  have hu := u.hour_lt
  have hu' := u.minute_lt
  have hu'' := u.second_lt
  have hmicro := u.microsecond_lt
  have hmicro' := v.microsecond_lt
  rw [instant, instant, dayMicroseconds] at h
  rw [isoformat, isoformat, String.lt_iff_toList_lt, String.toList_ofList, String.toList_ofList]
  rcases Nat.lt_trichotomy u.date.ordinal v.date.ordinal with h1 | h1 | h1
  · exact append_lt_append_of_lt (by rw [dateText_length, dateText_length]) (dateText_lt h1)
  · rw [Date.ordinal_injective h1] at h ⊢
    refine List.append_left_lt (List.cons_lt_cons_iff.mpr (.inr ⟨rfl, ?_⟩))
    rcases Nat.lt_trichotomy ((u.hour * 60 + u.minute) * 60 + u.second)
      ((v.hour * 60 + v.minute) * 60 + v.second) with h2 | h2 | h2
    · exact append_lt_append_of_lt (by rw [clockText_length, clockText_length]) (clockText_lt h2)
    · rw [clockText_eq h2]
      exact List.append_left_lt (fractionText_lt (by omega) hmicro')
    · omega
  · have hv := v.hour_lt
    have hv' := v.minute_lt
    have hv'' := v.second_lt
    omega

@[simp] theorem instant_ofInstant {t : Int} (h : InYears t) : (ofInstant t h).instant = t := by
  rw [InYears, dayMicroseconds] at h
  simp only [instant, ofInstant, Date.ordinal_ofOrdinal, dayMicroseconds]
  omega

end UtcTime

section Texts

variable {s t : Int}

theorem isoText_lt (hs : InYears s) (ht : InYears t) (h : s < t) : isoText s < isoText t := by
  rw [isoText, isoText, dif_pos hs, dif_pos ht]
  exact UtcTime.isoformat_lt (by rwa [UtcTime.instant_ofInstant, UtcTime.instant_ofInstant])

theorem isoText_le_iff (hs : InYears s) (ht : InYears t) : isoText s ≤ isoText t ↔ s ≤ t := by
  constructor
  · intro h
    by_contra hlt
    exact absurd (isoText_lt ht hs (not_le.mp hlt)) (not_lt.mpr h)
  · intro h
    rcases Int.lt_or_eq_of_le h with h | rfl
    · exact (isoText_lt hs ht h).le
    · exact le_rfl

theorem isoText_lt_iff (hs : InYears s) (ht : InYears t) : isoText s < isoText t ↔ s < t := by
  rw [← not_le, ← not_le, isoText_le_iff ht hs]

/-- What the readers select by texts is what they select by instants. -/
theorem textCovers_eq {r : FactRow} (ht : InYears t) (hfrom : InYears r.validFrom)
    (hto : ∀ stop ∈ r.validTo, InYears stop) :
    textCovers (isoText t) (isoText r.validFrom) (r.validTo.map isoText) = r.covers t := by
  rw [Bool.eq_iff_iff, FactRow.covers, covers_iff, textCovers, Bool.and_eq_true, decide_eq_true_eq,
    isoText_le_iff hfrom ht]
  refine and_congr_right fun _ => ?_
  cases hstop : r.validTo with
  | none => simp
  | some stop =>
      rw [Option.map_some, Option.all_some, decide_eq_true_eq, isoText_lt_iff ht (hto stop hstop)]
      constructor
      · intro hlt e he
        obtain rfl := Option.some.inj he
        exact hlt
      · intro h
        exact h stop rfl

end Texts

/-- The texts of two times are in the order of the times, and they are the same
for the same time only. So a row is selected at a time by the texts exactly when
it is by the times. -/
theorem timeTexts_ordered (a b : Datetime) (ha : InYears (utcText a)) (hb : InYears (utcText b)) :
    (isoText (utcText a) < isoText (utcText b) ↔ utcText a < utcText b) ∧
      (isoText (utcText a) ≤ isoText (utcText b) ↔ utcText a ≤ utcText b) ∧
      (isoText (utcText a) = isoText (utcText b) ↔ utcText a = utcText b) ∧
      ∀ r : FactRow, InYears r.validFrom → (∀ stop ∈ r.validTo, InYears stop) →
        textCovers (isoText (utcText a)) (isoText r.validFrom) (r.validTo.map isoText) =
          r.covers (utcText a) := by
  refine ⟨isoText_lt_iff ha hb, isoText_le_iff ha hb, ?_, fun r => textCovers_eq ha⟩
  rw [le_antisymm_iff, isoText_le_iff ha hb, isoText_le_iff hb ha, ← le_antisymm_iff]

/-- Noon in Lagos, and a millisecond later in UTC. -/
def noonInLagos : Datetime := ⟨43200000000, some 3600000000⟩

def millisecondLater : Datetime := ⟨39600001000, some 0⟩

theorem timeTexts_ordered_noon :
    isoText (utcText noonInLagos) = "1970-01-01T11:00:00+00:00" ∧
      isoText (utcText millisecondLater) = "1970-01-01T11:00:00.001000+00:00" ∧
      (isoText (utcText noonInLagos) < isoText (utcText millisecondLater) ↔
        utcText noonInLagos < utcText millisecondLater) :=
  ⟨by decide +kernel, by decide +kernel,
    (timeTexts_ordered noonInLagos millisecondLater (by decide) (by decide)).1⟩

end MarkSdk
