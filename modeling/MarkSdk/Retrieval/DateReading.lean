import MarkSdk.Retrieval.DateRanges

/-!
When a match of a date pattern can be read, and when it names a date.

`_resolve` turns the `ValueError` of a written date into no date; the
`KeyError` of a name that is in no table leaves it, and so does every error of a
relative date, for which the calendar can be too short. A range that is read
never ends before it begins.
-/

namespace MarkSdk.DateParsing

open Lib

section Reading

variable (py : Python) (nums : Numerals) (ref : Date) (dayFirst : Bool) (m : Match Char)

/-! ### The conditions -/

/-- The name that a group took is in the table, in lower case. -/
def Spelled (table : List (String × Nat)) (name : String) : Prop :=
  ∃ w n, m.group name = some w ∧ table.lookup (py.lower (String.ofList w)) = some n

/-- Nothing but a `ValueError` of a written date is raised. -/
def Legible : DateKind → Prop
  | .iso | .numeric | .isoMonth | .half | .year => True
  | .dayMonth | .monthDay =>
      (∃ year, yearOrRef nums m ref = .ok year) → Spelled py m monthNumbers "mon"
  | .monthYear => (∃ year, intGroup nums m "year" = .ok year) → Spelled py m monthNumbers "mon"
  | .month => Spelled py m monthNumbers "mon"
  | .quarter => (∃ c s, m.group "q" = some (c :: s)) ∨ Spelled py m ordinalNumbers "qw"
  | .ago => ∃ n unit, amount py nums m = .ok n ∧ lowerGroup py m "unit" = .ok unit ∧
      Reaches ref unit (-n) ∧ WeekEnds ref unit (-n)
  | .past => ∃ n unit, amount py nums m = .ok n ∧ lowerGroup py m "unit" = .ok unit ∧
      Reaches ref unit (-n)
  | .relUnit => ∃ rel step unit, lowerGroup py m "rel" = .ok rel ∧
      relativeSteps.lookup rel = some step ∧ lowerGroup py m "unit" = .ok unit ∧
      Reaches ref unit step ∧ WeekEnds ref unit step
  | .relWd => ∃ wd target rel, lowerGroup py m "wd" = .ok wd ∧
      weekdayNumbers.lookup wd = some target ∧ lowerGroup py m "rel" = .ok rel ∧
      Near ref target rel
  | .onWd => ∃ wd target, lowerGroup py m "wd" = .ok wd ∧
      weekdayNumbers.lookup wd = some target ∧ Near ref target "this"
  | .word => ∃ w offset, lowerGroup py m "w" = .ok w ∧ wordOffsets.lookup w = some offset ∧
      1 ≤ ref.ordinal + offset ∧ ref.ordinal + offset ≤ maxOrdinal

/-- What is written is a date of the calendar; a relative date always is. -/
def Names : DateKind → Prop
  | .iso => ∃ year month day, intGroup nums m "y" = .ok year ∧ intGroup nums m "m" = .ok month ∧
      intGroup nums m "d" = .ok day ∧ IsDate year month day
  | .numeric => ∃ a b y, intGroup nums m "a" = .ok a ∧ intGroup nums m "b" = .ok b ∧
      intGroup nums m "y" = .ok y ∧ IsDate ((if y < 100 then y + 2000 else y : Nat) : Int)
        (dayAndMonth dayFirst a b).2 (dayAndMonth dayFirst a b).1
  | .dayMonth | .monthDay => ∃ year month day, yearOrRef nums m ref = .ok year ∧
      monGroup py m = .ok month ∧ intGroup nums m "day" = .ok day ∧ IsDate year month day
  | .isoMonth => ∃ year month, intGroup nums m "y" = .ok year ∧ intGroup nums m "m" = .ok month ∧
      IsDate year month 1
  | .monthYear => ∃ year month, intGroup nums m "year" = .ok year ∧ monGroup py m = .ok month ∧
      IsDate year month 1
  | .month => ∃ month, monGroup py m = .ok month ∧ IsDate (leadYear py m ref month) month 1
  | .year => ∃ year, intGroup nums m "year" = .ok year ∧ 1 ≤ year ∧ year ≤ 9999
  | .quarter => ∃ q year, quarterGroup py nums m = .ok q ∧ yearOrRef nums m ref = .ok year ∧
      IsDate year (3 * q - 2) 1
  | .half => ∃ year h, yearOrRef nums m ref = .ok year ∧ intGroup nums m "h" = .ok h ∧
      IsDate year (6 * h - 5) 1
  | _ => True

end Reading

/-! ### Numbers and names -/

section Numbers

variable {py : Python} {nums : Numerals} {m : Match Char} {s w : List Char} {name : String}
  {n k : Nat} {ref : Date}

theorem length_of_mapM {α β : Type} {f : α → Option β} {xs : List α} {ys : List β}
    (h : xs.mapM f = some ys) : ys.length = xs.length := by
  induction xs generalizing ys with
  | nil =>
      cases h
      rfl
  | cons x xs ih =>
      rw [List.mapM_cons] at h
      obtain ⟨y, -, h⟩ := Option.bind_eq_some_iff.mp h
      obtain ⟨zs, hzs, h⟩ := Option.bind_eq_some_iff.mp h
      cases h
      rw [List.length_cons, List.length_cons, ih hzs]

/-- Digit by digit a number gains at most a place. -/
theorem foldl_digits_lt (digits : List (Fin 10)) (n : Nat) :
    digits.foldl (fun n d => 10 * n + d.val) n < (n + 1) * 10 ^ digits.length := by
  induction digits generalizing n with
  | nil => simp
  | cons d digits ih =>
      rw [List.foldl_cons, List.length_cons]
      calc digits.foldl (fun n d => 10 * n + d.val) (10 * n + d.val)
          < (10 * n + d.val + 1) * 10 ^ digits.length := ih _
        _ ≤ (n + 1) * 10 * 10 ^ digits.length := by
            have := d.isLt
            exact Nat.mul_le_mul_right _ (by omega)
        _ = (n + 1) * 10 ^ (digits.length + 1) := by
            rw [Nat.pow_succ', Nat.mul_assoc]

theorem readInt_lt (h : readInt nums s = .ok n) : n < 10 ^ s.length := by
  rw [readInt] at h
  split at h
  case h_1 => cases h
  case h_2 => cases h
  case h_3 digits _ hdigits =>
    split at h
    · cases h
      have hlt := foldl_digits_lt digits 0
      rwa [length_of_mapM hdigits, Nat.zero_add, Nat.one_mul] at hlt
    · cases h

theorem guarded_readInt : Guarded (readInt nums s) := by
  rw [readInt]
  split
  · exact guarded_valueError
  · exact guarded_valueError
  · split
    · exact guarded_ok
    · exact guarded_valueError

theorem guarded_intGroup (h : ∃ w, m.group name = some w) : Guarded (intGroup nums m name) := by
  obtain ⟨w, hw⟩ := h
  rw [intGroup, hw]
  exact guarded_readInt

theorem intGroup_lt (hshort : ∀ w, m.group name = some w → w.length ≤ k)
    (h : intGroup nums m name = .ok n) : n < 10 ^ k := by
  rw [intGroup] at h
  split at h
  case h_1 => cases h
  case h_2 w hw =>
    exact (readInt_lt h).trans_le (Nat.pow_le_pow_right (by omega) (hshort w hw))

theorem guarded_yearOrRef : Guarded (yearOrRef nums m ref) := by
  rw [yearOrRef]
  split
  · exact guarded_readInt
  · exact guarded_ok

theorem yearOrRef_lt (hshort : ∀ w, m.group "year" = some w → w.length ≤ 4)
    (h : yearOrRef nums m ref = .ok n) : n < 10 ^ 4 := by
  rw [yearOrRef] at h
  split at h
  case h_1 c s hs =>
    exact (readInt_lt h).trans_le (Nat.pow_le_pow_right (by omega) (hshort _ hs))
  case h_2 =>
    cases h
    have := ref.year_mem
    omega

/-- A name that is not spelled as in the table raises another error. -/
theorem guarded_lookUpGroup {table : List (String × Nat)} :
    Guarded (do lookUp table (← lowerGroup py m name)) ↔ Spelled py m table name := by
  constructor
  · intro h
    cases hw : m.group name with
    | none =>
        have := h .attributeError (by rw [lowerGroup, hw]; rfl)
        cases this
    | some w =>
        cases hn : table.lookup (py.lower (String.ofList w)) with
        | none =>
            have := h .keyError (by rw [lowerGroup, hw]; show lookUp table _ = _; rw [lookUp, hn])
            cases this
        | some n => exact ⟨w, n, hw, hn⟩
  · rintro ⟨w, n, hw, hn⟩
    rw [lowerGroup, hw]
    show Guarded (lookUp table _)
    rw [lookUp, hn]
    exact guarded_ok

theorem guarded_monGroup : Guarded (monGroup py m) ↔ Spelled py m monthNumbers "mon" :=
  guarded_lookUpGroup

theorem guarded_quarterGroup : Guarded (quarterGroup py nums m) ↔
    (∃ c s, m.group "q" = some (c :: s)) ∨ Spelled py m ordinalNumbers "qw" := by
  rw [quarterGroup]
  split
  case h_1 c s hq => exact iff_of_true guarded_readInt (.inl ⟨c, s, hq⟩)
  case h_2 hq =>
    rw [guarded_lookUpGroup]
    exact (or_iff_right fun ⟨c, s, h⟩ => hq c s h).symm

end Numbers

/-! ### Written dates -/

section Written

variable {py : Python} {nums : Numerals} {ref : Date} {dayFirst : Bool} {m : Match Char}
  {kind : DateKind} {text : String} {x : Except DateError DateRange} {range : DateRange}

theorem orNone_eq_some : orNone x = .ok (some range) ↔ x = .ok range := by
  cases x with
  | ok r => simp [orNone]
  | error e => cases e <;> simp [orNone]

theorem exists_orNone_iff : (∃ o, orNone x = .ok o) ↔ Guarded x := by
  cases x with
  | ok r => exact iff_of_true ⟨some r, rfl⟩ guarded_ok
  | error e =>
      by_cases he : e = .valueError
      · rw [he]
        exact iff_of_true ⟨none, rfl⟩ guarded_valueError
      · refine iff_of_false ?_ fun h => he (h e rfl)
        rintro ⟨o, ho⟩
        cases e with
        | valueError => exact he rfl
        | overflowError => cases ho
        | keyError => cases ho
        | typeError => cases ho
        | attributeError => cases ho

/-- A group that every match of the pattern has. -/
theorem group_of_matchesOf {name : String} (hm : m ∈ matchesOf py nums text kind)
    (hname : (nums.pattern py kind).always.contains name = true) : ∃ w, m.group name = some w :=
  GroupPattern.group_of_mem_finditer List.drop_zero hname hm

theorem guarded_of_matchesOf {name : String} (hm : m ∈ matchesOf py nums text kind)
    (hname : (nums.pattern py kind).always.contains name = true) :
    Guarded (intGroup nums m name) :=
  guarded_intGroup (group_of_matchesOf hm hname)

/-- A number of at most four digits is a year that can be asked for. -/
theorem intGroup_small {name : String} {n : Nat} (hm : m ∈ matchesOf py nums text kind)
    (hname : (nums.pattern py kind).narrow name 4 = true) (h : intGroup nums m name = .ok n) :
    n < 10 ^ 4 :=
  intGroup_lt (fun _ hw => GroupPattern.length_group_le List.drop_zero hname hm hw) h

theorem yearOrRef_small {n : Nat} (hm : m ∈ matchesOf py nums text kind)
    (hname : (nums.pattern py kind).narrow "year" 4 = true) (h : yearOrRef nums m ref = .ok n) :
    n < 10 ^ 4 :=
  yearOrRef_lt (fun _ hw => GroupPattern.length_group_le List.drop_zero hname hm hw) h

theorem leadYear_small {month : Nat} :
    -2 ^ 31 ≤ leadYear py m ref month ∧ leadYear py m ref month < 2 ^ 31 := by
  have := ref.year_mem
  rw [leadYear]
  split_ifs <;> omega

/-- A day with the name of its month. -/
theorem guarded_dayMonth (hm : m ∈ matchesOf py nums text kind)
    (hday : (nums.pattern py kind).always.contains "day" = true)
    (hyear : (nums.pattern py kind).narrow "year" 4 = true)
    (hx : resolveWritten py nums m ref dayFirst .dayMonth = some x) :
    Guarded x ↔ Legible py nums ref m .dayMonth := by
  cases hx
  rw [guarded_bind_iff, and_iff_right guarded_yearOrRef]
  simp only [Legible, forall_exists_index]
  refine forall_congr' fun year => forall_congr' fun hyear' => ?_
  have := yearOrRef_small hm hyear hyear'
  rw [guarded_bind_iff, guarded_monGroup]
  refine and_iff_left fun month _ => ?_
  refine guarded_bind_iff.mpr ⟨guarded_of_matchesOf hm hday, fun day _ => ?_⟩
  exact guarded_bind_iff.mpr ⟨guarded_mkDate (by omega), fun _ _ => guarded_ok⟩

/-- Under `try` only the names that are in no table raise another error. -/
theorem guarded_written_iff (hm : m ∈ matchesOf py nums text kind)
    (hx : resolveWritten py nums m ref dayFirst kind = some x) :
    Guarded x ↔ Legible py nums ref m kind := by
  cases kind with
  | iso =>
      cases hx
      refine iff_of_true ?_ trivial
      refine guarded_bind_iff.mpr ⟨guarded_of_matchesOf hm rfl, fun year hyear => ?_⟩
      have := intGroup_small hm rfl hyear
      refine guarded_bind_iff.mpr ⟨guarded_of_matchesOf hm rfl, fun month _ => ?_⟩
      refine guarded_bind_iff.mpr ⟨guarded_of_matchesOf hm rfl, fun day _ => ?_⟩
      exact guarded_bind_iff.mpr ⟨guarded_mkDate (by omega), fun _ _ => guarded_ok⟩
  | numeric =>
      cases hx
      refine iff_of_true ?_ trivial
      refine guarded_bind_iff.mpr ⟨guarded_of_matchesOf hm rfl, fun a _ => ?_⟩
      refine guarded_bind_iff.mpr ⟨guarded_of_matchesOf hm rfl, fun b _ => ?_⟩
      refine guarded_bind_iff.mpr ⟨guarded_of_matchesOf hm rfl, fun y hy => ?_⟩
      have := intGroup_small hm rfl hy
      refine guarded_bind_iff.mpr ⟨guarded_mkDate ?_, fun _ _ => guarded_ok⟩
      split <;> omega
  | dayMonth => exact guarded_dayMonth hm rfl rfl hx
  | monthDay =>
      have hsame : resolveWritten py nums m ref dayFirst .dayMonth = some x := hx
      exact guarded_dayMonth hm rfl rfl hsame
  | isoMonth =>
      cases hx
      refine iff_of_true ?_ trivial
      refine guarded_bind_iff.mpr ⟨guarded_of_matchesOf hm rfl, fun year hyear => ?_⟩
      have := intGroup_small hm rfl hyear
      refine guarded_bind_iff.mpr ⟨guarded_of_matchesOf hm rfl, fun month _ => ?_⟩
      exact guarded_monthsRange (by omega)
  | quarter =>
      cases hx
      rw [guarded_bind_iff, guarded_quarterGroup]
      refine and_iff_left fun q _ => ?_
      refine guarded_bind_iff.mpr ⟨guarded_yearOrRef, fun year hyear => ?_⟩
      have := yearOrRef_small hm rfl hyear
      exact guarded_monthsRange (by omega)
  | half =>
      cases hx
      refine iff_of_true ?_ trivial
      refine guarded_bind_iff.mpr ⟨guarded_yearOrRef, fun year hyear => ?_⟩
      have := yearOrRef_small hm rfl hyear
      refine guarded_bind_iff.mpr ⟨guarded_of_matchesOf hm rfl, fun h _ => ?_⟩
      exact guarded_monthsRange (by omega)
  | monthYear =>
      cases hx
      rw [guarded_bind_iff, and_iff_right (guarded_of_matchesOf hm rfl)]
      simp only [Legible, forall_exists_index]
      refine forall_congr' fun year => forall_congr' fun hyear => ?_
      have := intGroup_small hm rfl hyear
      rw [guarded_bind_iff, guarded_monGroup]
      exact and_iff_left fun month _ => guarded_monthsRange (by omega)
  | month =>
      cases hx
      rw [guarded_bind_iff, guarded_monGroup]
      exact and_iff_left fun month _ => guarded_monthsRange leadYear_small
  | year =>
      cases hx
      refine iff_of_true ?_ trivial
      refine guarded_bind_iff.mpr ⟨guarded_of_matchesOf hm rfl, fun year hyear => ?_⟩
      have := intGroup_small hm rfl hyear
      exact guarded_yearRange (by omega)
  | ago => cases hx
  | past => cases hx
  | relUnit => cases hx
  | relWd => cases hx
  | onWd => cases hx
  | word => cases hx

theorem exists_day_iff {year : Int} {month day : Nat} :
    (∃ range, (do return dayRange (← mkDate year month day)) = .ok range) ↔
      IsDate year month day := by
  rw [exists_bind_iff, ← exists_mkDate_iff]
  exact exists_congr fun d => and_iff_left ⟨dayRange d, rfl⟩

theorem exists_month_iff {year : Int} {month : Nat} :
    (∃ range, monthRange year month = .ok range) ↔ IsDate year month 1 := by
  rw [monthRange, exists_monthsRange_iff le_rfl]
  refine and_iff_left_of_imp fun h => ?_
  have := h.2.1
  omega

/-- A quarter or a half that begins in the year ends in it. -/
theorem exists_part_iff {year : Int} {n count : Nat} (hcount : count = 3 ∨ count = 6) :
    (∃ range, monthsRange year (count * n - (count - 1)) count = .ok range) ↔
      IsDate year (count * n - (count - 1)) 1 := by
  rw [exists_monthsRange_iff (by omega)]
  refine and_iff_left_of_imp fun h => ?_
  have := h.2.1
  rcases hcount with rfl | rfl
  · omega
  · omega

/-- What is written is read exactly when it is a date. -/
theorem exists_written_iff (hx : resolveWritten py nums m ref dayFirst kind = some x) :
    (∃ range, x = .ok range) ↔ Names py nums ref dayFirst m kind := by
  cases kind with
  | iso =>
      cases hx
      rw [exists_bind_iff]
      refine exists_congr fun year => ?_
      rw [exists_bind_iff]
      simp only [exists_bind_iff (x := intGroup nums m "d"), exists_day_iff, exists_and_left]
  | numeric =>
      cases hx
      rw [exists_bind_iff]
      refine exists_congr fun a => ?_
      simp only [exists_bind_iff (x := intGroup nums m _), exists_day_iff, exists_and_left]
  | dayMonth =>
      cases hx
      rw [exists_bind_iff]
      refine exists_congr fun year => ?_
      rw [exists_bind_iff]
      simp only [exists_bind_iff (x := intGroup nums m "day"), exists_day_iff, exists_and_left]
  | monthDay =>
      cases hx
      rw [exists_bind_iff]
      refine exists_congr fun year => ?_
      rw [exists_bind_iff]
      simp only [exists_bind_iff (x := intGroup nums m "day"), exists_day_iff, exists_and_left]
  | isoMonth =>
      cases hx
      simp only [exists_bind_iff, exists_month_iff, Names, exists_and_left]
  | quarter =>
      cases hx
      simp only [exists_bind_iff, Names, exists_and_left]
      refine exists_congr fun q => and_congr_right fun _ => ?_
      exact exists_congr fun year => and_congr_right fun _ => exists_part_iff (.inl rfl)
  | half =>
      cases hx
      simp only [exists_bind_iff, Names, exists_and_left]
      refine exists_congr fun year => and_congr_right fun _ => ?_
      exact exists_congr fun h => and_congr_right fun _ => exists_part_iff (.inr rfl)
  | monthYear =>
      cases hx
      simp only [exists_bind_iff, exists_month_iff, Names, exists_and_left]
  | month =>
      cases hx
      simp only [exists_bind_iff, exists_month_iff, Names]
  | year =>
      cases hx
      simp only [exists_bind_iff, exists_yearRange_iff, Names]
      refine exists_congr fun year => and_congr_right fun _ => ?_
      omega
  | ago => cases hx
  | past => cases hx
  | relUnit => cases hx
  | relWd => cases hx
  | onWd => cases hx
  | word => cases hx

theorem dayRange_le (d : Date) : (dayRange d).1 ≤ (dayRange d).2 := le_refl_date

theorem day_le {year : Int} {month day : Nat}
    (h : (do return dayRange (← mkDate year month day)) = .ok range) : range.1 ≤ range.2 := by
  obtain ⟨d, -, h⟩ := bind_eq_ok.mp h
  cases h
  exact dayRange_le d

/-- What is written never ends before it begins. -/
theorem written_le (hx : resolveWritten py nums m ref dayFirst kind = some (.ok range)) :
    range.1 ≤ range.2 := by
  cases kind with
  | iso =>
      obtain ⟨year, -, hok⟩ := bind_eq_ok.mp (Option.some.inj hx)
      obtain ⟨month, -, hok⟩ := bind_eq_ok.mp hok
      obtain ⟨day, -, hok⟩ := bind_eq_ok.mp hok
      exact day_le hok
  | numeric =>
      obtain ⟨a, -, hok⟩ := bind_eq_ok.mp (Option.some.inj hx)
      obtain ⟨b, -, hok⟩ := bind_eq_ok.mp hok
      obtain ⟨y, -, hok⟩ := bind_eq_ok.mp hok
      exact day_le hok
  | dayMonth =>
      obtain ⟨year, -, hok⟩ := bind_eq_ok.mp (Option.some.inj hx)
      obtain ⟨month, -, hok⟩ := bind_eq_ok.mp hok
      obtain ⟨day, -, hok⟩ := bind_eq_ok.mp hok
      exact day_le hok
  | monthDay =>
      obtain ⟨year, -, hok⟩ := bind_eq_ok.mp (Option.some.inj hx)
      obtain ⟨month, -, hok⟩ := bind_eq_ok.mp hok
      obtain ⟨day, -, hok⟩ := bind_eq_ok.mp hok
      exact day_le hok
  | isoMonth =>
      obtain ⟨year, -, hok⟩ := bind_eq_ok.mp (Option.some.inj hx)
      obtain ⟨month, -, hok⟩ := bind_eq_ok.mp hok
      exact monthsRange_le le_rfl hok
  | quarter =>
      obtain ⟨q, -, hok⟩ := bind_eq_ok.mp (Option.some.inj hx)
      obtain ⟨year, -, hok⟩ := bind_eq_ok.mp hok
      exact monthsRange_le (by omega) hok
  | half =>
      obtain ⟨year, -, hok⟩ := bind_eq_ok.mp (Option.some.inj hx)
      obtain ⟨h, -, hok⟩ := bind_eq_ok.mp hok
      exact monthsRange_le (by omega) hok
  | monthYear =>
      obtain ⟨year, -, hok⟩ := bind_eq_ok.mp (Option.some.inj hx)
      obtain ⟨month, -, hok⟩ := bind_eq_ok.mp hok
      exact monthsRange_le le_rfl hok
  | month =>
      obtain ⟨month, -, hok⟩ := bind_eq_ok.mp (Option.some.inj hx)
      exact monthsRange_le le_rfl hok
  | year =>
      obtain ⟨year, -, hok⟩ := bind_eq_ok.mp (Option.some.inj hx)
      exact yearRange_le hok
  | ago => cases hx
  | past => cases hx
  | relUnit => cases hx
  | relWd => cases hx
  | onWd => cases hx
  | word => cases hx

end Written

/-! ### Relative dates -/

section Relative

variable {py : Python} {nums : Numerals} {ref : Date} {m : Match Char}
  {kind : DateKind} {x : Except DateError DateRange} {range : DateRange} {unit : String} {n : Int}

/-- A unit around a date that was moved. -/
theorem exists_moved_iff : (∃ d, shift ref unit n = .ok d ∧ ∃ range, unitRange d unit = .ok range) ↔
    Reaches ref unit n ∧ WeekEnds ref unit n := by
  rw [← exists_shift_iff]
  constructor
  · rintro ⟨d, hd, hrange⟩
    refine ⟨⟨d, hd⟩, ?_⟩
    rintro rfl
    have hweek := exists_unitRange_iff.mp hrange rfl
    have hday := shift_week hd
    simp only [Date.weekday] at hweek ⊢
    omega
  · rintro ⟨⟨d, hd⟩, hweek⟩
    refine ⟨d, hd, exists_unitRange_iff.mpr ?_⟩
    rintro rfl
    have hends := hweek rfl
    have hday := shift_week hd
    simp only [Date.weekday] at hends ⊢
    omega

theorem exists_dayRange_iff {d : Except DateError Date} :
    (∃ range, (do return dayRange (← d)) = .ok range) ↔ ∃ day, d = .ok day := by
  rw [exists_bind_iff]
  exact exists_congr fun day => and_iff_left ⟨dayRange day, rfl⟩

/-- A relative date is read exactly when the calendar reaches as far. -/
theorem exists_relative_iff (hx : relativeRange py nums m ref kind = some x) :
    (∃ range, x = .ok range) ↔ Legible py nums ref m kind := by
  cases kind with
  | ago =>
      cases hx
      rw [exists_bind_iff]
      refine exists_congr fun n => ?_
      simp only [exists_bind_iff, exists_and_left, exists_moved_iff]
  | past =>
      cases hx
      rw [exists_bind_iff]
      refine exists_congr fun n => ?_
      rw [exists_bind_iff, exists_and_left]
      refine and_congr_right fun _ => exists_congr fun unit => and_congr_right fun _ => ?_
      rw [exists_bind_iff, ← exists_shift_iff]
      exact exists_congr fun d => and_iff_left ⟨(d, ref), rfl⟩
  | relUnit =>
      cases hx
      rw [exists_bind_iff]
      refine exists_congr fun rel => ?_
      simp only [exists_bind_iff, exists_and_left, exists_moved_iff, lookUp_eq_ok]
  | relWd =>
      cases hx
      rw [exists_bind_iff]
      refine exists_congr fun wd => ?_
      rw [exists_bind_iff]
      simp only [exists_bind_iff (x := lowerGroup py m "rel"), exists_dayRange_iff, lookUp_eq_ok,
        exists_weekdayNear_iff, exists_and_left]
  | onWd =>
      cases hx
      rw [exists_bind_iff]
      refine exists_congr fun wd => ?_
      rw [exists_bind_iff]
      simp only [exists_dayRange_iff, lookUp_eq_ok, exists_weekdayNear_iff, exists_and_left]
  | word =>
      cases hx
      rw [exists_bind_iff]
      refine exists_congr fun w => ?_
      rw [exists_bind_iff]
      simp only [exists_dayRange_iff, lookUp_eq_ok, exists_plusDays_iff, exists_and_left]
  | iso => cases hx
  | numeric => cases hx
  | dayMonth => cases hx
  | monthDay => cases hx
  | isoMonth => cases hx
  | quarter => cases hx
  | half => cases hx
  | monthYear => cases hx
  | month => cases hx
  | year => cases hx

/-- A relative date never ends before it begins. -/
theorem relative_le (hx : relativeRange py nums m ref kind = some (.ok range)) :
    range.1 ≤ range.2 := by
  cases kind with
  | ago =>
      obtain ⟨n, -, hok⟩ := bind_eq_ok.mp (Option.some.inj hx)
      obtain ⟨unit, -, hok⟩ := bind_eq_ok.mp hok
      obtain ⟨start, -, hok⟩ := bind_eq_ok.mp hok
      exact unitRange_le hok
  | past =>
      obtain ⟨n, -, hok⟩ := bind_eq_ok.mp (Option.some.inj hx)
      obtain ⟨unit, -, hok⟩ := bind_eq_ok.mp hok
      obtain ⟨start, hstart, hok⟩ := bind_eq_ok.mp hok
      cases hok
      exact shift_le (by omega) hstart
  | relUnit =>
      obtain ⟨rel, -, hok⟩ := bind_eq_ok.mp (Option.some.inj hx)
      obtain ⟨step, -, hok⟩ := bind_eq_ok.mp hok
      obtain ⟨unit, -, hok⟩ := bind_eq_ok.mp hok
      obtain ⟨day, -, hok⟩ := bind_eq_ok.mp hok
      exact unitRange_le hok
  | relWd =>
      obtain ⟨wd, -, hok⟩ := bind_eq_ok.mp (Option.some.inj hx)
      obtain ⟨target, -, hok⟩ := bind_eq_ok.mp hok
      obtain ⟨rel, -, hok⟩ := bind_eq_ok.mp hok
      obtain ⟨day, -, hok⟩ := bind_eq_ok.mp hok
      cases hok
      exact dayRange_le day
  | onWd =>
      obtain ⟨wd, -, hok⟩ := bind_eq_ok.mp (Option.some.inj hx)
      obtain ⟨target, -, hok⟩ := bind_eq_ok.mp hok
      obtain ⟨day, -, hok⟩ := bind_eq_ok.mp hok
      cases hok
      exact dayRange_le day
  | word =>
      obtain ⟨w, -, hok⟩ := bind_eq_ok.mp (Option.some.inj hx)
      obtain ⟨offset, -, hok⟩ := bind_eq_ok.mp hok
      obtain ⟨day, -, hok⟩ := bind_eq_ok.mp hok
      cases hok
      exact dayRange_le day
  | iso => cases hx
  | numeric => cases hx
  | dayMonth => cases hx
  | monthDay => cases hx
  | isoMonth => cases hx
  | quarter => cases hx
  | half => cases hx
  | monthYear => cases hx
  | month => cases hx
  | year => cases hx

end Relative

/-! ### Both -/

section Resolve

variable {py : Python} {nums : Numerals} {ref : Date} {dayFirst : Bool} {m : Match Char}
  {kind : DateKind} {text : String} {range : DateRange}

/-- Every kind is written or relative. -/
theorem written_or_relative : (∃ x, resolveWritten py nums m ref dayFirst kind = some x) ∨
    resolveWritten py nums m ref dayFirst kind = none ∧
      (∃ x, relativeRange py nums m ref kind = some x) ∧ Names py nums ref dayFirst m kind := by
  cases kind <;> simp [resolveWritten, relativeRange, Names]

/-- A match can be read. -/
theorem legible_iff (hm : m ∈ matchesOf py nums text kind) :
    Legible py nums ref m kind ↔ ∃ o, resolve py nums m ref dayFirst kind = .ok o := by
  rw [resolve]
  rcases @written_or_relative py nums ref dayFirst m kind with ⟨x, hx⟩ | ⟨hnone, ⟨x, hx⟩, -⟩
  · rw [hx]
    exact ((exists_orNone_iff).trans (guarded_written_iff hm hx)).symm
  · rw [hnone, ← exists_relative_iff hx]
    simp only [resolveRelative, hx]
    cases x with
    | ok r => exact iff_of_true ⟨r, rfl⟩ ⟨some r, rfl⟩
    | error e => exact iff_of_false (fun ⟨_, h⟩ => nomatch h) fun ⟨_, h⟩ => nomatch h

/-- A match is read as a range. -/
theorem names_iff (hm : m ∈ matchesOf py nums text kind) :
    (∃ range, resolve py nums m ref dayFirst kind = .ok (some range)) ↔
      Legible py nums ref m kind ∧ Names py nums ref dayFirst m kind := by
  rcases @written_or_relative py nums ref dayFirst m kind with ⟨x, hx⟩ | ⟨hnone, ⟨x, hx⟩, hnames⟩
  · rw [← exists_written_iff hx, ← guarded_written_iff hm hx, resolve, hx]
    simp only [orNone_eq_some]
    refine (and_iff_right_of_imp ?_).symm
    rintro ⟨range, rfl⟩
    exact guarded_ok
  · rw [and_iff_left hnames, ← exists_relative_iff hx, resolve, hnone]
    simp only [resolveRelative, hx]
    cases x with
    | ok r => exact iff_of_true ⟨r, rfl⟩ ⟨r, rfl⟩
    | error e => exact iff_of_false (fun ⟨_, h⟩ => nomatch h) fun ⟨_, h⟩ => nomatch h

/-- No range ends before it begins. -/
theorem resolve_le (h : resolve py nums m ref dayFirst kind = .ok (some range)) :
    range.1 ≤ range.2 := by
  rw [resolve] at h
  rcases @written_or_relative py nums ref dayFirst m kind with ⟨x, hx⟩ | ⟨hnone, ⟨x, hx⟩, -⟩
  · rw [hx] at h
    obtain rfl := orNone_eq_some.mp h
    exact written_le hx
  · rw [hnone] at h
    simp only [resolveRelative, hx] at h
    cases x with
    | ok r =>
        cases h
        exact relative_le hx
    | error e => cases h

end Resolve

end MarkSdk.DateParsing
