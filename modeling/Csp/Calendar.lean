import Csp.Dates

/-! The civil calendar. The two conversions of the key file are inverse to each other on every
real date and every day number that the 64-bit arithmetic can carry, and keep the order. -/

namespace Csp

/-! ### Real dates -/

def isLeap (y : Nat) : Bool := y % 4 = 0 && (y % 100 ≠ 0 || y % 400 = 0)

def monthLength (y m : Nat) : Nat :=
  if m = 2 then (if isLeap y then 29 else 28)
  else if m = 4 ∨ m = 6 ∨ m = 9 ∨ m = 11 then 30
  else 31

structure CivilDate where
  year : Nat
  month : Nat
  day : Nat
  month_pos : 1 ≤ month
  month_le : month ≤ 12
  day_pos : 1 ≤ day
  day_le : day ≤ monthLength year month

namespace CivilDate

def epoch : CivilDate := ⟨1970, 1, 1, by decide, by decide, by decide, by decide⟩

def Before (a b : CivilDate) : Prop :=
  a.year < b.year ∨ a.year = b.year ∧ (a.month < b.month ∨ a.month = b.month ∧ a.day < b.day)

theorem eq_of_not_before {a b : CivilDate} (h : ¬ a.Before b) (h' : ¬ b.Before a) : a = b := by
  obtain ⟨y, m, d, _, _, _, _⟩ := a
  obtain ⟨y', m', d', _, _, _, _⟩ := b
  unfold Before at h h'
  simp only at h h'
  obtain ⟨rfl, rfl, rfl⟩ : y = y' ∧ m = m' ∧ d = d' := by omega
  rfl

end CivilDate

/-! ### The conversions, on 64-bit integers -/

/-- The result of an operation on `i64`. One that does not fit is an error. -/
def i64 (x : Int) : Option Int := if -2 ^ 63 ≤ x ∧ x < 2 ^ 63 then some x else none

/-- `as u32`. -/
def asU32 (x : Int) : Nat := (x % 2 ^ 32).toNat

namespace I64

/-- The year is `i64`, the month and the day are `u32`. What is not checked here cannot overflow. -/
def daysFromCivil (y : Int) (m d : Nat) : Option Int := do
  let yy ← (if m ≤ 2 then i64 (y - 1) else some y)
  let n ← (if yy ≥ 0 then some yy else i64 (yy - 399))
  let era := n.tdiv 400
  let yoe := yy - era * 400
  let mm : Int := m
  let dd : Int := d
  let doy := (153 * (if mm > 2 then mm - 3 else mm + 9) + 2).tdiv 5 + dd - 1
  let doe := yoe * 365 + yoe.tdiv 4 - yoe.tdiv 100 + doy
  let start ← i64 (era * 146097)
  let day ← i64 (start + doe)
  i64 (day - 719468)

def civilFromDays (days : Int) : Option (Int × Nat × Nat) := do
  let z ← i64 (days + 719468)
  let n ← (if z ≥ 0 then some z else i64 (z - 146096))
  let era := n.tdiv 146097
  let doe := z - era * 146097
  let yoe := (doe - doe.tdiv 1460 + doe.tdiv 36524 - doe.tdiv 146096).tdiv 365
  let y := yoe + era * 400
  let doy := doe - (365 * yoe + yoe.tdiv 4 - yoe.tdiv 100)
  let mp := (5 * doy + 2).tdiv 153
  let d := asU32 (doy - (153 * mp + 2).tdiv 5 + 1)
  let m := asU32 (if mp < 10 then mp + 3 else mp - 9)
  let y := y + if m ≤ 2 then 1 else 0
  pure (y, m, d)

end I64

/-! ### Months -/

theorem yearDays_succ (y : Nat) : yearDays (y + 1) = yearDays y + 365 +
    (if isLeap (y + 1) then 1 else 0) := by
  have hleap : isLeap (y + 1) = true ↔ (y + 1) % 4 = 0 ∧
      ((y + 1) % 100 ≠ 0 ∨ (y + 1) % 400 = 0) := by
    simp [isLeap]
  unfold yearDays
  by_cases h : isLeap (y + 1) = true
  · rw [if_pos h]
    rw [hleap] at h
    omega
  · rw [if_neg h]
    rw [hleap] at h
    omega

/-- The day before the first of a month: the months are numbered through. -/
def monthStart (k : Nat) : Nat := eraDays (k / 12) (k % 12 + 1) 1

theorem monthStart_succ {k : Nat} (hk : 12 ≤ k) : monthStart (k + 1) = monthStart k + monthLength
    (k / 12) (k % 12 + 1) := by
  obtain ⟨y, hy⟩ : ∃ y, k / 12 = y + 1 := ⟨k / 12 - 1, by omega⟩
  obtain ⟨m, hm⟩ : ∃ m, k % 12 = m := ⟨_, rfl⟩
  have hm12 : m < 12 := by omega
  have hyear := yearDays_succ y
  unfold monthStart eraDays
  rw [hy, hm]
  by_cases hlast : m = 11
  · subst hlast
    have hnext : (k + 1) / 12 = y + 2 ∧ (k + 1) % 12 = 0 := by omega
    rw [hnext.1, hnext.2]
    simp [monthLength]
  · have hnext : (k + 1) / 12 = y + 1 ∧ (k + 1) % 12 = m + 1 := by omega
    rw [hnext.1, hnext.2]
    unfold monthLength
    interval_cases m
    all_goals simp
    all_goals first | omega | (split_ifs at hyear ⊢ <;> omega)

theorem monthStart_mono {j k : Nat} (hj : 12 ≤ j) (hjk : j ≤ k) : monthStart j ≤ monthStart k := by
  induction k, hjk using Nat.le_induction with
  | base => exact le_rfl
  | succ k hk ih =>
    rw [monthStart_succ (hj.trans hk)]
    omega

namespace CivilDate

def monthIndex (a : CivilDate) : Nat := 12 * a.year + (a.month - 1)

def eraDays (a : CivilDate) : Nat := Csp.eraDays a.year a.month a.day

theorem eraDays_eq (a : CivilDate) : a.eraDays = monthStart a.monthIndex + (a.day - 1) := by
  have hm := a.month_pos
  have hm' := a.month_le
  have hd := a.day_pos
  have hsplit : a.monthIndex / 12 = a.year ∧ a.monthIndex % 12 + 1 = a.month := by
    unfold monthIndex
    omega
  unfold eraDays monthStart
  rw [hsplit.1, hsplit.2]
  unfold Csp.eraDays
  omega

theorem eraDays_lt {a : CivilDate} (h : 1 ≤ a.year) :
    a.eraDays < monthStart (a.monthIndex + 1) := by
  have hm := a.month_pos
  have hm' := a.month_le
  have hd := a.day_pos
  have hd' := a.day_le
  have hindex : 12 ≤ a.monthIndex ∧ a.monthIndex / 12 = a.year ∧
      a.monthIndex % 12 + 1 = a.month := by
    unfold monthIndex
    omega
  rw [monthStart_succ hindex.1, hindex.2.1, hindex.2.2, eraDays_eq]
  omega

theorem eraDays_lt_of_before {a b : CivilDate} (ha : 1 ≤ a.year) (h : a.Before b) :
    a.eraDays < b.eraDays := by
  have hm := a.month_pos
  have hm' := a.month_le
  have hd := a.day_pos
  have hmb := b.month_pos
  have hlt := eraDays_lt ha
  have hindex : 12 ≤ a.monthIndex + 1 := by
    unfold monthIndex
    omega
  have hcases : a.monthIndex < b.monthIndex ∨ a.monthIndex = b.monthIndex ∧ a.day < b.day := by
    unfold monthIndex
    unfold Before at h
    omega
  rcases hcases with hlater | ⟨hsame, hday⟩
  · have hmono := monthStart_mono hindex hlater
    rw [eraDays_eq b]
    omega
  · rw [eraDays_eq, eraDays_eq, hsame]
    omega

theorem eraDays_injective {a b : CivilDate} (ha : 1 ≤ a.year) (hb : 1 ≤ b.year)
    (h : a.eraDays = b.eraDays) : a = b := by
  refine eq_of_not_before (fun hab => ?_) (fun hba => ?_)
  · exact absurd h (eraDays_lt_of_before ha hab).ne
  · exact absurd h (eraDays_lt_of_before hb hba).ne'

theorem eraDays_epoch : epoch.eraDays = 719468 := by decide

theorem le_eraDays {a : CivilDate} (ha : ¬ a.Before epoch) : 1970 ≤ a.year ∧
    719468 ≤ a.eraDays := by
  have hm := a.month_pos
  have hy : 1970 ≤ a.year := by
    by_contra hy
    exact ha (.inl (Nat.lt_of_not_le hy))
  refine ⟨hy, ?_⟩
  by_cases hb : epoch.Before a
  · exact eraDays_epoch ▸ (eraDays_lt_of_before (by decide) hb).le
  · rw [eq_of_not_before ha hb, eraDays_epoch]

end CivilDate

/-! ### The conversions -/

theorem exists_civilDate (n : Nat) : ∃ a : CivilDate, civilFromDays n = (a.year, a.month, a.day) ∧
    a.eraDays = n + 719468 := by
  obtain ⟨era, yoe, doy, mp, hn, hyear, hend, hnext, hmp, hcivil⟩ := civilFromDays_parts n
  obtain ⟨hmonth, hfirst, hlast⟩ := day_of_year hend hmp
  obtain ⟨y, m, d, hymd, hm, hm', hd, hd', hdays⟩ := eraDays_civilFromDays n
  have heq := hymd.symm.trans hcivil
  simp only [Prod.mk.injEq] at heq
  refine ⟨⟨y, m, d, hm, hm', hd, ?_⟩, hymd, hdays⟩
  obtain ⟨hy, hmonths, hday⟩ := heq
  have hleap : isLeap y = true ↔ y % 4 = 0 ∧ (y % 100 ≠ 0 ∨ y % 400 = 0) := by
    simp [isLeap]
  unfold monthLength
  by_cases h2 : m = 2
  · -- The last month of the shifted year ends where the next year starts.
    have hmp11 : mp = 11 := by
      split_ifs at hmonths <;> omega
    subst hmp11
    rw [if_pos h2]
    by_cases hl : isLeap y = true
    · rw [if_pos hl]
      omega
    · rw [if_neg hl]
      rw [hleap] at hl
      simp at hy
      omega
  · rw [if_neg h2]
    split_ifs at hmonths ⊢ <;> omega

/-! ### The 64-bit arithmetic -/

theorem i64_eq {x : Int} (h : -2 ^ 63 ≤ x) : i64 x = if x < 2 ^ 63 then some x else none := by
  simp only [i64, h, true_and]

theorem asU32_natCast {n : Nat} (h : n < 2 ^ 32) : asU32 n = n := by
  unfold asU32
  omega

theorem tdiv_natCast {x : Int} {n : Nat} (h : x = n) (k : Nat) : x.tdiv k = (n / k : Nat) := by
  rw [h, Int.ofNat_tdiv]

theorem i64_natCast (n : Nat) : i64 n = if n < 2 ^ 63 then some (n : Int) else none := by
  rw [i64_eq (by omega)]
  split_ifs <;> first | rfl | omega

theorem sum_i64 (n doe : Nat) : (do
      let start ← i64 (n : Int)
      let day ← i64 (start + doe)
      i64 (day - 719468)) = if n + doe < 2 ^ 63 then some
      (((n + doe : Nat) : Int) - 719468) else none := by
  rw [i64_natCast]
  by_cases h1 : n < 2 ^ 63
  · rw [if_pos h1, Option.bind_eq_bind, Option.bind_some]
    rw [show (n : Int) + doe = (n + doe : Nat) by omega, i64_natCast]
    by_cases h2 : n + doe < 2 ^ 63
    · rw [if_pos h2, if_pos h2, Option.bind_some, i64_eq (by omega), if_pos (by omega)]
    · rw [if_neg h2, if_neg h2]
      rfl
  · have h2 : ¬ n + doe < 2 ^ 63 := fun h2 => h1 ((Nat.le_add_right _ _).trans_lt h2)
    rw [if_neg h1, if_neg h2]
    rfl

namespace I64

theorem civilFromDays_natCast (n : Nat) : civilFromDays n =
    if n + 719468 < 2 ^ 63 then
      some (((Csp.civilFromDays n).1 : Int), (Csp.civilFromDays n).2.1, (Csp.civilFromDays n).2.2)
    else none := by
  unfold civilFromDays
  rw [i64_eq (by omega)]
  by_cases h : n + 719468 < 2 ^ 63
  · have hz : ((n : Int) + 719468) < 2 ^ 63 := by omega
    have hz0 : ((n : Int) + 719468) ≥ 0 := by omega
    rw [if_pos hz, if_pos h]
    simp only [Option.bind_eq_bind, Option.bind_some, if_pos hz0, Option.pure_def,
      Option.some.injEq]
    obtain ⟨z, hzn⟩ : ∃ z, z = n + 719468 := ⟨_, rfl⟩
    obtain ⟨era, hera⟩ : ∃ era, era = z / 146097 := ⟨_, rfl⟩
    obtain ⟨doe, hdoe⟩ : ∃ doe, doe = z - era * 146097 := ⟨_, rfl⟩
    obtain ⟨yoe, hyoe⟩ : ∃ yoe, yoe = (doe - doe / 1460 + doe / 36524 - doe / 146096) / 365 :=
      ⟨_, rfl⟩
    obtain ⟨doy, hdoy⟩ : ∃ doy, doy = doe - (365 * yoe + yoe / 4 - yoe / 100) := ⟨_, rfl⟩
    obtain ⟨mp, hmp⟩ : ∃ mp, mp = (5 * doy + 2) / 153 := ⟨_, rfl⟩
    obtain ⟨hyear, hstart, hend⟩ := year_of_era (show doe < 146097 by omega) rfl rfl rfl hyoe
    rw [← hdoy] at hend
    obtain ⟨hmonth, hfirst, hlast⟩ := day_of_year hend hmp
    -- each 64-bit quotient is the quotient of naturals, one line of the source after the other
    have ez : (n : Int) + 719468 = z := by omega
    have eera : (z : Int).tdiv 146097 = era := hera ▸ tdiv_natCast rfl 146097
    have edoe : (z : Int) - era * 146097 = doe := by omega
    have eyoe : ((doe : Int) - (doe : Int).tdiv 1460 + (doe : Int).tdiv 36524 -
          (doe : Int).tdiv 146096).tdiv 365 = yoe := by
      have e1 : (doe : Int).tdiv 1460 = (doe / 1460 : Nat) := tdiv_natCast rfl 1460
      have e2 : (doe : Int).tdiv 36524 = (doe / 36524 : Nat) := tdiv_natCast rfl 36524
      have e3 : (doe : Int).tdiv 146096 = (doe / 146096 : Nat) := tdiv_natCast rfl 146096
      rw [e1, e2, e3, hyoe]
      exact tdiv_natCast (by omega) 365
    have edoy : (doe : Int) - (365 * yoe + (yoe : Int).tdiv 4 - (yoe : Int).tdiv 100) = doy := by
      have e1 : (yoe : Int).tdiv 4 = (yoe / 4 : Nat) := tdiv_natCast rfl 4
      have e2 : (yoe : Int).tdiv 100 = (yoe / 100 : Nat) := tdiv_natCast rfl 100
      rw [e1, e2]
      omega
    have emp : (5 * (doy : Int) + 2).tdiv 153 = mp := hmp ▸ tdiv_natCast (by omega) 153
    have ed : asU32 ((doy : Int) - (153 * (mp : Int) + 2).tdiv 5 + 1) = doy -
        (153 * mp + 2) / 5 + 1 := by
      have e1 : (153 * (mp : Int) + 2).tdiv 5 = ((153 * mp + 2) / 5 : Nat) :=
          tdiv_natCast (by omega) 5
      rw [e1, show (doy : Int) - ((153 * mp + 2) / 5 : Nat) + 1 = (doy - (153 * mp + 2) / 5 + 1 :
          Nat) by omega]
      exact asU32_natCast (by omega)
    have em : asU32 (if (mp : Int) < 10 then (mp : Int) + 3 else mp - 9) =
        if mp < 10 then mp + 3 else mp - 9 := by
      by_cases h10 : mp < 10
      · rw [if_pos h10, if_pos (by omega)]
        exact asU32_natCast (n := mp + 3) (by omega)
      · rw [if_neg h10, if_neg (by omega), show (mp : Int) - 9 = (mp - 9 : Nat) by omega]
        exact asU32_natCast (by omega)
    have hcivil : Csp.civilFromDays n = (if (if mp < 10 then mp + 3 else mp - 9) ≤
          2 then yoe + era * 400 + 1
        else yoe + era * 400, if mp < 10 then mp + 3 else mp - 9,
        doy - (153 * mp + 2) / 5 + 1) := by
      subst hmp hdoy hyoe hdoe hera hzn
      rfl
    rw [hcivil]
    simp only [ez, eera, edoe, eyoe, edoy, emp, ed, em]
    split_ifs <;> simp
  · have hz : ¬ ((n : Int) + 719468) < 2 ^ 63 := by omega
    rw [if_neg hz, if_neg h]
    rfl

theorem daysFromCivil_natCast {y m d : Nat} (hy : 1 ≤ y) (hm : 1 ≤ m) (hm' : m ≤ 12) (hd : 1 ≤ d)
    (hd' : d ≤ 31) :
    daysFromCivil y m d = if eraDays y m d < 2 ^ 63 then some
    ((eraDays y m d : Int) - 719468) else none := by
  obtain ⟨yy, hyy⟩ : ∃ yy, yy = if m ≤ 2 then y - 1 else y := ⟨_, rfl⟩
  obtain ⟨era, hera⟩ : ∃ era, era = yy / 400 := ⟨_, rfl⟩
  obtain ⟨yoe, hyoe⟩ : ∃ yoe, yoe = yy - era * 400 := ⟨_, rfl⟩
  obtain ⟨doy, hdoy⟩ : ∃ doy, doy = (153 * (if m > 2 then m - 3 else m + 9) + 2) / 5 + d - 1 :=
    ⟨_, rfl⟩
  obtain ⟨doe, hdoe⟩ : ∃ doe, doe = yoe * 365 + yoe / 4 - yoe / 100 + doy := ⟨_, rfl⟩
  have hdays : eraDays y m d = era * 146097 + doe := by
    unfold eraDays yearDays
    rw [← hyy, ← hdoy, ← hera, ← hyoe, hdoe]
    omega
  have hyears : yy ≤ era * 146097 + doe := by omega
  -- the year that starts in March, then the source's quotients one by one
  have eyy : (if m ≤ 2 then i64 ((y : Int) - 1) else some (y : Int)) = if m ≤ 2 then i64
      (yy : Int) else some yy := by
    split_ifs at hyy ⊢
    · rw [hyy, show (y : Int) - 1 = (y - 1 : Nat) by omega]
    · rw [hyy]
  have hyy0 : (yy : Int) ≥ 0 := by omega
  have eera : (yy : Int).tdiv 400 = era := hera ▸ tdiv_natCast rfl 400
  have eyoe : (yy : Int) - era * 400 = yoe := by omega
  have edoy : (153 * (if (m : Int) > 2 then (m : Int) - 3 else m + 9) + 2).tdiv 5 +
      (d : Int) - 1 = doy := by
    by_cases h2 : m > 2
    · rw [if_pos (show (m : Int) > 2 by omega), show 153 * ((m : Int) - 3) + 2 =
        (153 * (m - 3) + 2 : Nat) by omega]
      rw [if_pos h2] at hdoy
      have e := tdiv_natCast (rfl : (((153 * (m - 3) + 2 : Nat)) : Int) = _) 5
      simp only [Nat.cast_ofNat] at e
      rw [e]
      omega
    · rw [if_neg (show ¬ (m : Int) > 2 by omega), show 153 * ((m : Int) + 9) + 2 =
        (153 * (m + 9) + 2 : Nat) by omega]
      rw [if_neg h2] at hdoy
      have e := tdiv_natCast (rfl : (((153 * (m + 9) + 2 : Nat)) : Int) = _) 5
      simp only [Nat.cast_ofNat] at e
      rw [e]
      omega
  have edoe : (yoe : Int) * 365 + (yoe : Int).tdiv 4 - (yoe : Int).tdiv 100 + doy = doe := by
    have e1 : (yoe : Int).tdiv 4 = (yoe / 4 : Nat) := tdiv_natCast rfl 4
    have e2 : (yoe : Int).tdiv 100 = (yoe / 100 : Nat) := tdiv_natCast rfl 100
    rw [e1, e2]
    omega
  have hrest : (do
      let start ← i64 ((era : Int) * 146097)
      let day ← i64 (start + doe)
      i64 (day - 719468)) = if era * 146097 + doe < 2 ^ 63 then some
      (((era * 146097 + doe : Nat) : Int) - 719468) else none := by
    rw [show (era : Int) * 146097 = (era * 146097 : Nat) by omega]
    exact sum_i64 _ _
  rw [hdays, ← hrest]
  unfold daysFromCivil
  rw [eyy]
  by_cases hm2 : m ≤ 2
  · rw [if_pos hm2, i64_natCast]
    by_cases h : yy < 2 ^ 63
    · rw [if_pos h, Option.bind_eq_bind, Option.bind_some]
      dsimp only
      rw [if_pos hyy0, Option.bind_some, eera, eyoe, edoy, edoe]
    -- a year that overflows has a day number that does
    · have hbig : ¬ era * 146097 + doe < 2 ^ 63 := fun hlt => h (hyears.trans_lt hlt)
      rw [hrest, if_neg h, if_neg hbig]
      rfl
  · rw [if_neg hm2, Option.bind_eq_bind, Option.bind_some]
    dsimp only
    rw [if_pos hyy0, Option.bind_some, eera, eyoe, edoy, edoe]

end I64

/-! ### The calendar is exact -/

namespace CivilDate

def FromEpoch (a : CivilDate) : Prop := ¬ a.Before epoch

/-- The date of the last day that `i64` carries from the start of the first era on. -/
def last : CivilDate := ⟨25252734927766554, 9, 25, by decide, by decide, by decide, by decide⟩

theorem eraDays_last : last.eraDays = 2 ^ 63 - 1 := by decide +kernel

theorem day_le_31 (a : CivilDate) : a.day ≤ 31 := by
  have h := a.day_le
  unfold monthLength at h
  split_ifs at h <;> omega

theorem daysFromCivil_date {a : CivilDate} (ha : a.FromEpoch) :
    I64.daysFromCivil a.year a.month a.day = if a.eraDays < 2 ^ 63 then some
    ((a.eraDays : Int) - 719468) else none :=
  I64.daysFromCivil_natCast (by have := (le_eraDays ha).1; omega) a.month_pos a.month_le
    a.day_pos a.day_le_31

theorem daysFromCivil_some {a : CivilDate} (ha : a.FromEpoch) {x : Int}
    (h : I64.daysFromCivil a.year a.month a.day = some x) : a.eraDays < 2 ^ 63 ∧
    (a.eraDays : Int) = x + 719468 := by
  rw [daysFromCivil_date ha] at h
  split_ifs at h with hfit
  have hx := Option.some.inj h
  exact ⟨hfit, by omega⟩

theorem fromEpoch_of_eraDays {a : CivilDate} {n : Nat} (h : a.eraDays = n + 719468) :
    a.FromEpoch := by
  intro hb
  have hy : 1 ≤ a.year := by
    by_contra hy
    have hsmall := Csp.eraDays_lt (y := a.year) a.month_le a.day_le_31 (by omega)
    have := h
    unfold eraDays at this
    omega
  have := eraDays_lt_of_before hy hb
  rw [eraDays_epoch] at this
  omega

theorem civilFromDays_date {a : CivilDate} (ha : a.FromEpoch) (hfit : a.eraDays < 2 ^ 63) {n : Nat}
    (hn : a.eraDays = n + 719468) :
    I64.civilFromDays n = some ((a.year : Int), a.month, a.day) := by
  obtain ⟨b, hb, hdays⟩ := exists_civilDate n
  obtain rfl : a = b := eraDays_injective (by have := (le_eraDays ha).1; omega)
    (by have := (le_eraDays (fromEpoch_of_eraDays hdays)).1; omega) (hn.trans hdays.symm)
  rw [I64.civilFromDays_natCast, if_pos (by omega), hb]

end CivilDate

open CivilDate in
/-- The two conversions are inverse to each other, between the day numbers from 1970-01-01 on and
the real dates from that day on, wherever the 64-bit arithmetic does not overflow; dates are in
the order of their numbers; and a date that is written is read back as its midnight. -/
theorem calendar_exact :
    (∀ n : Nat, n + 719468 < 2 ^ 63 → ∃ a : CivilDate, a.FromEpoch ∧
      I64.civilFromDays n = some ((a.year : Int), a.month, a.day) ∧
      I64.daysFromCivil a.year a.month a.day = some (n : Int)) ∧
    (∀ a : CivilDate, a.FromEpoch → ∀ x, I64.daysFromCivil a.year a.month a.day = some x →
      0 ≤ x ∧ I64.civilFromDays x = some ((a.year : Int), a.month, a.day)) ∧
    (∀ a : CivilDate, a.FromEpoch →
      ((I64.daysFromCivil a.year a.month a.day).isSome = true ↔ ¬ last.Before a)) ∧
    (∀ a b : CivilDate, a.FromEpoch → b.FromEpoch → ∀ x y,
      I64.daysFromCivil a.year a.month a.day = some x →
      I64.daysFromCivil b.year b.month b.day = some y → (a.Before b ↔ x < y)) ∧
    (∀ t < 2 ^ 64, ∀ y m d, I64.civilFromDays ((t / secsPerDay : Nat) : Int) = some
      (y, m, d) → y ≤ 9999 →
      parseDateYmdUtc (formatDateYmdUtc t) = some (t / secsPerDay * secsPerDay)) := by
  refine ⟨fun n hn => ?_, fun a ha x hx => ?_, fun a ha => ?_, fun a b ha hb x y hx hy => ?_,
    fun t ht y m d hcivil hy => ?_⟩
  · obtain ⟨a, -, hdays⟩ := exists_civilDate n
    have ha := fromEpoch_of_eraDays hdays
    have hfit : a.eraDays < 2 ^ 63 := hdays ▸ hn
    refine ⟨a, ha, civilFromDays_date ha hfit hdays, ?_⟩
    rw [daysFromCivil_date ha, if_pos hfit, hdays,
      show ((n + 719468 : Nat) : Int) - 719468 = n by omega]
  · obtain ⟨hfit, hdays⟩ := daysFromCivil_some ha hx
    have hstart := (le_eraDays ha).2
    obtain ⟨n, rfl⟩ : ∃ n : Nat, x = n := ⟨x.toNat, by omega⟩
    exact ⟨by omega, civilFromDays_date ha hfit (by omega)⟩
  · have hyear := (le_eraDays ha).1
    -- the last date is the one whose day number is just below the bound
    have hfit : a.eraDays < 2 ^ 63 ↔ ¬ last.Before a := by
      constructor
      · intro hlt hafter
        have := eraDays_lt_of_before (by decide) hafter
        rw [eraDays_last] at this
        omega
      · intro hnot
        by_cases hb : a.Before last
        · have := eraDays_lt_of_before (by omega) hb
          rw [eraDays_last] at this
          omega
        · rw [eq_of_not_before hb hnot, eraDays_last]
          decide
    rw [daysFromCivil_date ha, ← hfit]
    by_cases h : a.eraDays < 2 ^ 63
    · rw [if_pos h]
      exact iff_of_true rfl h
    · rw [if_neg h]
      exact iff_of_false Bool.false_ne_true h
  · obtain ⟨-, hxa⟩ := daysFromCivil_some ha hx
    obtain ⟨-, hyb⟩ := daysFromCivil_some hb hy
    have hya := (le_eraDays ha).1
    have hyb' := (le_eraDays hb).1
    constructor
    · intro hab
      have := eraDays_lt_of_before (by omega) hab
      omega
    · intro hlt
      by_contra hab
      by_cases hba : b.Before a
      · have := eraDays_lt_of_before (by omega) hba
        omega
      · obtain rfl := eq_of_not_before hab hba
        omega
  · have hday : t / secsPerDay + 719468 < 2 ^ 63 := by
      unfold secsPerDay
      omega
    obtain ⟨y', m', d', hnat, -, -, -, -, -, hyear, -⟩ := civilFromDays_spec (t / secsPerDay)
    rw [I64.civilFromDays_natCast, if_pos hday, hnat] at hcivil
    obtain ⟨rfl, -⟩ := Prod.mk.inj (Option.some.inj hcivil)
    rw [parseDateYmdUtc_format ht, if_pos (hyear.mp (by omega))]

example : I64.civilFromDays 19782 = some (2024, 2, 29) := by decide

end Csp
