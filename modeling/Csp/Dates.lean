import Mathlib.Tactic.IntervalCases
import Csp.Authkeys
import Csp.TextFacts

/-! Civil dates. Each day has one date, and the date of a day is read back from its text as
long as the year has four digits. -/

namespace Csp

/-! ### The calendar -/

/-- The year of the era, from the day of the era: a leap year in every fourth year but not in
three of four centuries. -/
theorem year_of_era {doe q c k y : Nat} (h : doe < 146097) (hq : q = doe / 1460)
    (hc : c = doe / 36524) (hk : k = doe / 146096) (hy : y = (doe - q + c - k) / 365) :
    y ≤ 399 ∧ 365 * y + y / 4 - y / 100 ≤ doe ∧ doe - (365 * y + y / 4 - y / 100) ≤ 365 := by
  have hk1 : k ≤ 1 := by omega
  have hc4 : c ≤ 4 := by omega
  have hy399 : y ≤ 399 := by omega
  obtain ⟨d, hd⟩ : ∃ d, d = y / 100 := ⟨_, rfl⟩
  have hd3 : d ≤ 3 := by omega
  rw [← hd]
  refine ⟨hy399, ?_⟩
  interval_cases c <;> interval_cases d <;> interval_cases k <;> omega

theorem year_end_of_era {doe q c k y : Nat} (h : doe < 146097) (hq : q = doe / 1460)
    (hc : c = doe / 36524) (hk : k = doe / 146096) (hy : y = (doe - q + c - k) / 365) :
    y = 399 ∨ doe < 365 * (y + 1) + (y + 1) / 4 - (y + 1) / 100 := by
  have hk1 : k ≤ 1 := by omega
  have hc4 : c ≤ 4 := by omega
  have hy399 : y ≤ 399 := by omega
  obtain ⟨d, hd⟩ : ∃ d, d = (y + 1) / 100 := ⟨_, rfl⟩
  have hd4 : d ≤ 4 := by omega
  rw [← hd]
  interval_cases c <;> interval_cases d <;> interval_cases k <;> omega

theorem day_of_year {doy mp : Nat} (h : doy ≤ 365) (hmp : mp = (5 * doy + 2) / 153) :
    mp ≤ 11 ∧ (153 * mp + 2) / 5 ≤ doy ∧ doy - (153 * mp + 2) / 5 ≤ 30 := by
  omega

def yearDays (y : Nat) : Nat :=
  y / 400 * 146097 + ((y - y / 400 * 400) * 365 + (y - y / 400 * 400) / 4 -
    (y - y / 400 * 400) / 100)

def eraDays (y m d : Nat) : Nat :=
  yearDays (if m ≤ 2 then y - 1 else y) + ((153 * (if m > 2 then m - 3 else m + 9) + 2) / 5 + d - 1)

theorem daysFromCivil_eq (y m d : Nat) : daysFromCivil y m d = eraDays y m d - 719468 := by
  rw [eraDays, yearDays, Nat.add_assoc]
  rfl

theorem yearDays_mono : Monotone yearDays := by
  refine monotone_nat_of_le_succ fun y => ?_
  unfold yearDays
  omega

theorem civilFromDays_parts (n : Nat) : ∃ era yoe doy mp, n + 719468 = era * 146097 +
    (365 * yoe + yoe / 4 - yoe / 100) + doy ∧ yoe ≤ 399 ∧ doy ≤ 365 ∧
    (yoe = 399 ∨ 365 * yoe + yoe / 4 - yoe / 100 + doy < 365 * (yoe + 1) + (yoe + 1) / 4 -
      (yoe + 1) / 100) ∧
    mp = (5 * doy + 2) / 153 ∧
    civilFromDays n = (if (if mp < 10 then mp + 3 else mp - 9) ≤
      2 then yoe + era * 400 + 1 else yoe + era * 400,
      if mp < 10 then mp + 3 else mp - 9, doy - (153 * mp + 2) / 5 + 1) := by
  obtain ⟨z, hz⟩ : ∃ z, z = n + 719468 := ⟨_, rfl⟩
  obtain ⟨era, hera⟩ : ∃ era, era = z / 146097 := ⟨_, rfl⟩
  obtain ⟨doe, hdoe⟩ : ∃ doe, doe = z - era * 146097 := ⟨_, rfl⟩
  obtain ⟨yoe, hyoe⟩ : ∃ yoe, yoe = (doe - doe / 1460 + doe / 36524 - doe / 146096) / 365 :=
    ⟨_, rfl⟩
  obtain ⟨doy, hdoy⟩ : ∃ doy, doy = doe - (365 * yoe + yoe / 4 - yoe / 100) := ⟨_, rfl⟩
  obtain ⟨mp, hmp⟩ : ∃ mp, mp = (5 * doy + 2) / 153 := ⟨_, rfl⟩
  have hdoe' : doe < 146097 := by omega
  obtain ⟨hyear, hstart, hend⟩ := year_of_era hdoe' rfl rfl rfl hyoe
  have hnext := year_end_of_era hdoe' rfl rfl rfl hyoe
  rw [← hdoy] at hend
  refine ⟨era, yoe, doy, mp, by omega, hyear, hend, by omega, hmp, ?_⟩
  subst hmp hdoy hyoe hdoe hera hz
  rfl

theorem eraDays_civilFromDays (n : Nat) : ∃ y m d, civilFromDays n = (y, m, d) ∧ 1 ≤ m ∧ m ≤ 12 ∧
    1 ≤ d ∧ d ≤ 31 ∧ eraDays y m d = n + 719468 := by
  obtain ⟨era, yoe, doy, mp, hn, hyear, hend, -, hmp, hcivil⟩ := civilFromDays_parts n
  obtain ⟨hmonth, hfirst, hlast⟩ := day_of_year hend hmp
  refine ⟨_, _, _, hcivil, ?_, ?_, by omega, by omega, ?_⟩
  · split_ifs <;> omega
  · split_ifs <;> omega
  · have hmonths : (153 * mp + 2) / 5 + (doy - (153 * mp + 2) / 5 + 1) - 1 = doy := by omega
    have hera' : (yoe + era * 400) / 400 = era ∧ yoe + era * 400 - era * 400 = yoe := by omega
    unfold eraDays yearDays
    by_cases hm : mp < 10
    · have h3 : ¬ mp + 3 ≤ 2 := by omega
      simp only [if_pos hm, if_neg h3, show mp + 3 >
        2 by omega, if_true, Nat.add_sub_cancel, hera', hmonths]
      omega
    · have h2 : mp - 9 ≤ 2 := by omega
      simp only [if_neg hm, if_pos h2, show ¬ mp - 9 > 2 by omega, if_false, Nat.add_sub_cancel,
        show mp - 9 + 9 = mp by omega, hera', hmonths]
      omega

theorem eraDays_lt {y m d : Nat} (hm : m ≤ 12) (hd : d ≤ 31) (hy : y ≤ 1969) :
    eraDays y m d < 719468 := by
  have h1968 : yearDays (y - 1) ≤ yearDays 1968 := yearDays_mono (by omega)
  have h1969 : yearDays y ≤ yearDays 1969 := yearDays_mono hy
  rw [show yearDays 1968 = 718797 by decide] at h1968
  rw [show yearDays 1969 = 719162 by decide] at h1969
  unfold eraDays
  split_ifs <;> omega

theorem eraDays_le {y m d : Nat} (hm : m ≤ 12) (hd : d ≤ 31) (hy : y ≤ 9999) :
    eraDays y m d ≤ 2932896 + 719468 := by
  have h9998 : yearDays (y - 1) ≤ yearDays 9998 := yearDays_mono (by omega)
  have h9999 : yearDays y ≤ yearDays 9999 := yearDays_mono hy
  rw [show yearDays 9998 = 3651694 by decide] at h9998
  rw [show yearDays 9999 = 3652059 by decide] at h9999
  unfold eraDays
  split_ifs <;> omega

theorem lt_eraDays {y m d : Nat} (hm : 1 ≤ m) (hd : 1 ≤ d) (hy : 10000 ≤ y) :
    2932896 + 719468 < eraDays y m d := by
  have h9999 : yearDays 9999 ≤ yearDays (y - 1) := yearDays_mono (by omega)
  have h10000 : yearDays 10000 ≤ yearDays y := yearDays_mono hy
  rw [show yearDays 9999 = 3652059 by decide] at h9999
  rw [show yearDays 10000 = 3652425 by decide] at h10000
  unfold eraDays
  split_ifs <;> omega

def lastDay : Nat := daysFromCivil 9999 12 31

theorem lastDay_eq : lastDay = 2932896 := by decide

theorem civilFromDays_spec (n : Nat) : ∃ y m d, civilFromDays n = (y, m, d) ∧ 1 ≤ m ∧ m ≤ 12 ∧
    1 ≤ d ∧ d ≤ 31 ∧ 1970 ≤ y ∧ (y ≤ 9999 ↔ n ≤ lastDay) ∧ daysFromCivil y m d = n := by
  obtain ⟨y, m, d, hcivil, hm, hm', hd, hd', hdays⟩ := eraDays_civilFromDays n
  refine ⟨y, m, d, hcivil, hm, hm', hd, hd', ?_, ?_, by rw [daysFromCivil_eq]; omega⟩
  · by_contra hy
    have := eraDays_lt (y := y) hm' hd' (by omega)
    omega
  · rw [lastDay_eq]
    constructor
    · intro hy
      have := eraDays_le hm' hd' hy
      omega
    · intro hn
      by_contra hy
      have := lt_eraDays (y := y) hm hd (by omega)
      omega

/-! ### The text of a date -/

theorem isDigit_of_mem_padded {w n : Nat} {c : Char} (h : c ∈ padded w n) : c.isDigit = true := by
  rcases List.mem_append.mp h with h | h
  · rw [List.eq_of_mem_replicate h]
    rfl
  · exact isDigit_of_mem_decimal h

theorem padded_ne_nil (w n : Nat) : padded w n ≠ [] :=
  List.append_ne_nil_of_right_ne_nil _ (decimal_ne_nil n)

theorem parseUnsigned_padded {bound w n : Nat} (h : n < bound) :
    parseUnsigned bound (padded w n) = some n := by
  have hplus : dropPlus (padded w n) = padded w n := by
    unfold dropPlus
    split
    · rename_i t ht
      have hd := isDigit_of_mem_padded (ht ▸ List.mem_cons_self : '+' ∈ padded w n)
      simp at hd
    · rfl
  have hall : (padded w n).all Char.isDigit = true :=
    List.all_eq_true.mpr fun c hc => isDigit_of_mem_padded hc
  have hval : Nat.ofDigitChars 10 (padded w n) 0 = n := by
    rw [padded, Nat.ofDigitChars_append, Nat.ofDigitChars_replicate_zero, Nat.mul_zero]
    exact Nat.ofDigitChars_ten_toDigits
  simp only [parseUnsigned, hplus, if_neg (padded_ne_nil w n), hall, if_true, hval, if_pos h]

theorem dash_notMem_padded (w n : Nat) : '-' ∉ padded w n := by
  intro h
  have := isDigit_of_mem_padded h
  simp at this

theorem year_lt {n y m d : Nat} (hn : n < 2 ^ 48) (hdays : daysFromCivil y m d = n) :
    y < 2 ^ 63 := by
  rw [daysFromCivil_eq] at hdays
  have hyears : 365 * (y - 1) ≤ eraDays y m d := by
    unfold eraDays yearDays
    split_ifs <;> omega
  omega

theorem formatDateYmdUtc_eq (t : Nat) : ∃ y m d, civilFromDays (t / secsPerDay) = (y, m, d) ∧
    formatDateYmdUtc t = padded 4 y ++ '-' :: (padded 2 m ++ '-' :: padded 2 d) := by
  obtain ⟨y, m, d, hcivil, -⟩ := civilFromDays_spec (t / secsPerDay)
  exact ⟨y, m, d, hcivil, by simp [formatDateYmdUtc, hcivil]⟩

theorem mem_formatDateYmdUtc {t : Nat} {c : Char} (h : c ∈ formatDateYmdUtc t) : c = '-' ∨
    c.isDigit = true := by
  obtain ⟨y, m, d, -, htext⟩ := formatDateYmdUtc_eq t
  rw [htext, List.mem_append, List.mem_cons, List.mem_append, List.mem_cons] at h
  rcases h with h | h | h | h | h
  · exact .inr (isDigit_of_mem_padded h)
  · exact .inl h
  · exact .inr (isDigit_of_mem_padded h)
  · exact .inl h
  · exact .inr (isDigit_of_mem_padded h)

theorem dash_mem_formatDateYmdUtc (t : Nat) : '-' ∈ formatDateYmdUtc t := by
  obtain ⟨y, m, d, -, htext⟩ := formatDateYmdUtc_eq t
  rw [htext]
  exact List.mem_append_right _ List.mem_cons_self

theorem parseDateYmdUtc_pieces {s : Str} {y m d : Nat}
    (h : Split.splitOn '-' s = [padded 4 y, padded 2 m, padded 2 d]) (hy : y < 2 ^ 63)
    (hm : m < 2 ^ 63) (hd : d < 2 ^ 63) :
    parseDateYmdUtc s = if 1 ≤ m ∧ m ≤ 12 ∧ 1 ≤ d ∧ d ≤ 31 ∧ 1970 ≤ y ∧ y ≤ 9999 then
      some (daysFromCivil y m d * secsPerDay) else none := by
  simp only [parseDateYmdUtc, h, parseI64, parseUnsigned_padded hy, parseUnsigned_padded hm,
    parseUnsigned_padded hd]

theorem parseDateYmdUtc_format {t : Nat} (ht : t < 2 ^ 64) :
    parseDateYmdUtc (formatDateYmdUtc t) = if t / secsPerDay ≤ lastDay then some
    (t / secsPerDay * secsPerDay) else none := by
  obtain ⟨y, m, d, hcivil, hm, hm', hd, hd', hy, hyear, hdays⟩ :=
    civilFromDays_spec (t / secsPerDay)
  have hn : t / secsPerDay < 2 ^ 48 := by
    unfold secsPerDay
    omega
  obtain ⟨y', m', d', hcivil', htext⟩ := formatDateYmdUtc_eq t
  obtain ⟨rfl, rfl, rfl⟩ : y' = y ∧ m' = m ∧ d' = d := by simpa using hcivil'.symm.trans hcivil
  have hpieces : Split.splitOn '-' (formatDateYmdUtc t) = [padded 4 y', padded 2 m',
      padded 2 d'] := by
    rw [htext, Split.splitOn_append_sep (dash_notMem_padded _ _), Split.splitOn_append_sep
      (dash_notMem_padded _ _),
      Split.splitOn_of_notMem (dash_notMem_padded _ _)]
  rw [parseDateYmdUtc_pieces hpieces (year_lt hn hdays) (by omega) (by omega), hdays]
  by_cases hlast : t / secsPerDay ≤ lastDay
  · rw [if_pos hlast, if_pos ⟨hm, hm', hd, hd', hy, hyear.mpr hlast⟩]
  · rw [if_neg hlast, if_neg fun h => hlast (hyear.mp h.2.2.2.2.2)]

example : formatDateYmdUtc (lastDay * secsPerDay) = "9999-12-31".toList := by decide +kernel

end Csp
