import Mathlib

/-! # The ACPI timer (`arch/x86_64/sys/time.cpp`) and the calendar (`sys/time.cpp`) -/

namespace AexKernel.Sys

/-- `acpi_pm_timer_overflow_correction`, as `init` sets it from `fixed_flags`. -/
def overflowCorrection (flags : BitVec 32) : ℕ := if flags.getLsbD 8 then 0xFFFFFFFF else 0xFFFFFF

/-- The period of the counter. -/
def period (flags : BitVec 32) : ℕ := if flags.getLsbD 8 then 0x100000000 else 0x1000000

/-- `delta` in `uptime` and in `uptime_raw`, where `last` is `acpi_pm_timer_ticks`. -/
def delta (flags : BitVec 32) (ticks last : ℕ) : ℕ :=
  if ticks < last then ticks + overflowCorrection flags - last else ticks - last

/-- The sum of the deltas of reads at the true times `times`, after a read at `last`. -/
def sumDeltas (flags : BitVec 32) : ℕ → List ℕ → ℕ
  | _, [] => 0
  | last, time :: times =>
    delta flags (time % period flags) (last % period flags) + sumDeltas flags time times

/-- Less than a period passes between two reads. -/
def Frequent (flags : BitVec 32) (times : List ℕ) : Prop :=
  times.IsChain fun last time => last ≤ time ∧ time < last + period flags

variable {flags : BitVec 32} {last time : ℕ}

/-- A wrap of the counter loses one tick. -/
theorem delta_add_wraps (hl : last ≤ time) (ht : time < last + period flags) :
    delta flags (time % period flags) (last % period flags) +
      (time / period flags - last / period flags) = time - last := by
  cases hf : flags.getLsbD 8
  all_goals
    simp only [delta, overflowCorrection, period, hf, if_true, Bool.false_eq_true, if_false] at *
    split_ifs <;> omega

theorem sumDeltas_add_wraps (times : List ℕ) (last : ℕ) (h : Frequent flags (last :: times)) :
    last ≤ times.getLastD last ∧ sumDeltas flags last times +
      (times.getLastD last / period flags - last / period flags) = times.getLastD last - last := by
  induction times generalizing last with
  | nil => simp [sumDeltas]
  | cons time times ih =>
    obtain ⟨⟨hl, ht⟩, h⟩ := List.isChain_cons_cons.mp h
    obtain ⟨hl', hs⟩ := ih time h
    have ho := delta_add_wraps hl ht
    have hd := Nat.div_le_div_right (c := period flags) hl
    have hd' := Nat.div_le_div_right (c := period flags) hl'
    rw [sumDeltas, List.getLastD_cons]
    omega

/-- **No tick is lost exactly when the counter does not wrap.** -/
theorem sumDeltas_eq_iff (flags : BitVec 32) (first : ℕ) (times : List ℕ)
    (h : Frequent flags (first :: times)) :
    sumDeltas flags first times = times.getLastD first - first ↔
      times.getLastD first / period flags = first / period flags := by
  obtain ⟨hle, hsum⟩ := sumDeltas_add_wraps times first h
  have hdiv := Nat.div_le_div_right (c := period flags) hle
  omega

theorem sumDeltas_eq_iff_three : Frequent 0 [3, 5, 9] ∧ sumDeltas 0 3 [5, 9] = 6 := by
  have h : Frequent 0 [3, 5, 9] := by simp [Frequent, period]
  exact ⟨h, (sumDeltas_eq_iff 0 3 [5, 9] h).2 (by decide)⟩

theorem sumDeltas_wrap :
    Frequent 0 [0xFFFFFF, 0x1000000] ∧ sumDeltas 0 0xFFFFFF [0x1000000] = 0 := by
  simp [Frequent, period, sumDeltas, delta, overflowCorrection]

/-! ## Dates to seconds -/

/-- `date_time`. -/
@[ext]
structure DateTime where
  (year month day hour minute second : ℕ)
  deriving DecidableEq

def dayCountForEachMonth : List ℕ := [31, 28, 31, 30, 31, 30, 31, 31, 30, 31, 0, 0]

/-- The difference of two values of type `uint32_t`. -/
def sub32 (a b : ℕ) : ℕ := (a + (2 ^ 32 - b % 2 ^ 32)) % 2 ^ 32

/-- `day_since_jan1`. -/
def daySinceJan1 (dt : DateTime) : ℕ :=
  ((dayCountForEachMonth.take (dt.month - 1)).sum + dt.day) % 65536

def dt2epoch (dt : DateTime) : ℕ :=
  let y := sub32 dt.year 1900
  (sub32 (dt.second + dt.minute * 60 + dt.hour * 3600 + daySinceJan1 dt * 86400 +
      sub32 y 70 * 31536000 + sub32 y 69 / 4 * 86400) (sub32 y 1 / 100 * 86400) +
    (y + 299) % 2 ^ 32 / 400 * 86400) % 2 ^ 32

/-- Leap years of the Gregorian calendar. -/
def Leap (year : ℕ) : Prop := year % 4 = 0 ∧ (year % 100 ≠ 0 ∨ year % 400 = 0)
deriving Decidable

def daysIn (year month : ℕ) : ℕ :=
  if month = 2 then if Leap year then 29 else 28 else if month ∈ [4, 6, 9, 11] then 30 else 31

/-- A date of the calendar, from 1970 on. -/
def DateTime.Valid (dt : DateTime) : Prop :=
  1970 ≤ dt.year ∧ 1 ≤ dt.month ∧ dt.month ≤ 12 ∧ 1 ≤ dt.day ∧ dt.day ≤ daysIn dt.year dt.month ∧
    dt.hour < 24 ∧ dt.minute < 60 ∧ dt.second < 60
deriving Decidable

def daysBeforeYear (year : ℕ) : ℕ := ∑ y ∈ Finset.Ico 1970 year, if Leap y then 366 else 365

/-- The seconds since 1970-01-01 00:00:00. -/
def posix (dt : DateTime) : ℕ :=
  (daysBeforeYear dt.year + ∑ m ∈ Finset.Ico 1 dt.month, daysIn dt.year m + (dt.day - 1)) * 86400 +
    dt.hour * 3600 + dt.minute * 60 + dt.second

/-- The seconds `dt2epoch` means, before they are cut to 32 bits. -/
def counted (dt : DateTime) : ℕ :=
  (daysBeforeYear dt.year + daySinceJan1 dt) * 86400 + dt.hour * 3600 + dt.minute * 60 + dt.second

/-- The multiples of 4, without those of 100, with those of 400. -/
theorem ite_leap_add (year : ℕ) :
    (if Leap year then 366 else 365) + (if 100 ∣ year then 1 else 0) =
      365 + (if 4 ∣ year then 1 else 0) + if 400 ∣ year then 1 else 0 := by
  split_ifs with h <;> unfold Leap at h <;> omega

theorem daysBeforeYear_eq (n : ℕ) :
    daysBeforeYear (n + 1970) + (n + 69) / 100 = 365 * n + (n + 1) / 4 + (n + 70 + 299) / 400 := by
  induction n with
  | zero => rfl
  | succ n ih =>
    have hy := ite_leap_add (n + 1970)
    have h4 : (n + 1 + 1) / 4 = (n + 1) / 4 + if 4 ∣ n + 1970 then 1 else 0 := by
      split_ifs <;> omega
    have h100 : (n + 1 + 69) / 100 = (n + 69) / 100 + if 100 ∣ n + 1970 then 1 else 0 := by
      split_ifs <;> omega
    have h400 : (n + 1 + 70 + 299) / 400 =
        (n + 70 + 299) / 400 + if 400 ∣ n + 1970 then 1 else 0 := by
      split_ifs <;> omega
    rw [daysBeforeYear, add_right_comm, Finset.sum_Ico_succ_top (by omega), ← daysBeforeYear]
    linarith

/-- No difference wraps in the years that fit. -/
theorem sub32_year {n : ℕ} (h : n ≤ 136) : sub32 (n + 1970) 1900 = n + 70 ∧
    sub32 (n + 70) 70 = n ∧ sub32 (n + 70) 69 = n + 1 ∧ sub32 (n + 70) 1 = n + 69 ∧
    (n + 70 + 299) % 2 ^ 32 = n + 70 + 299 := by
  unfold sub32
  omega

variable {dt : DateTime}

/-- A leap day and the 30 days of November are left out. -/
theorem sum_daysIn (year : ℕ) : ∀ month ≤ 12, ∑ m ∈ Finset.Ico 1 month, daysIn year m =
    (dayCountForEachMonth.take (month - 1)).sum +
      (if 3 ≤ month ∧ Leap year then 1 else 0) + if month = 12 then 30 else 0 := by
  unfold daysIn
  by_cases hl : Leap year
  all_goals
    simp only [hl, and_true, and_false, if_true, if_false]
    decide

theorem sum_take_le : ∀ k < 12, (dayCountForEachMonth.take k).sum +
    dayCountForEachMonth.getD k 0 ≤ 304 ∧ dayCountForEachMonth.getD k 0 ≤ 31 := by
  decide

theorem daySinceJan1_eq (h : dt.Valid) : daySinceJan1 dt +
    (if 3 ≤ dt.month ∧ Leap dt.year then 1 else 0) + (if dt.month = 12 then 30 else 0) =
      ∑ m ∈ Finset.Ico 1 dt.month, daysIn dt.year m + dt.day := by
  obtain ⟨-, -, he, -, ha, -⟩ := h
  have hd : dt.day ≤ 31 := by
    unfold daysIn at ha
    split_ifs at ha <;> omega
  have hb := sum_take_le (dt.month - 1) (by omega)
  rw [sum_daysIn dt.year dt.month he]
  unfold daySinceJan1
  omega

/-- In the years that fit, the leap days are those of the calendar. -/
theorem dt2epoch_eq (h : dt.Valid) (hf : posix dt < 2 ^ 32) :
    dt2epoch dt = counted dt % 2 ^ 32 := by
  obtain ⟨n, hn⟩ := Nat.exists_eq_add_of_le' h.1
  have hd := daysBeforeYear_eq n
  have hl : n ≤ 136 := by
    rw [posix, hn] at hf
    omega
  obtain ⟨h1900, h70, h69, h1, h299⟩ := sub32_year hl
  simp only [dt2epoch, counted, hn, h1900, h70, h69, h1, h299]
  unfold sub32
  omega

/-- What the counted seconds lack, and the day that is counted too much. -/
theorem counted_add (h : dt.Valid) : counted dt +
    ((if 3 ≤ dt.month ∧ Leap dt.year then 1 else 0) + if dt.month = 12 then 30 else 0) * 86400 =
      posix dt + 86400 := by
  have hjan := daySinceJan1_eq h
  have hday := h.2.2.2.1
  unfold counted posix
  omega

/-- **The conversion is right exactly from March to November of a leap year.** -/
theorem dt2epoch_eq_posix_iff (dt : DateTime) (h : dt.Valid) (hfit : posix dt < 2 ^ 32) :
    dt2epoch dt = posix dt ↔ Leap dt.year ∧ 3 ≤ dt.month ∧ dt.month ≤ 11 := by
  have hcount := counted_add h
  have hle := h.2.2.1
  rw [dt2epoch_eq h hfit]
  by_cases hl : Leap dt.year
  · simp only [hl, and_true, true_and] at hcount ⊢
    split_ifs at hcount <;> omega
  · simp only [hl, and_false, false_and, if_false, iff_false] at hcount ⊢
    split_ifs at hcount <;> omega

theorem dt2epoch_eq_posix_iff_may :
    dt2epoch ⟨2020, 5, 1, 0, 0, 0⟩ = posix ⟨2020, 5, 1, 0, 0, 0⟩ :=
  (dt2epoch_eq_posix_iff _ (by decide) (by decide)).2 (by decide)

theorem dt2epoch_ne_posix : posix ⟨1970, 1, 1, 0, 0, 0⟩ = 0 ∧
    dt2epoch ⟨1970, 1, 1, 0, 0, 0⟩ = 86400 ∧
    dt2epoch ⟨1970, 12, 1, 0, 0, 0⟩ < dt2epoch ⟨1970, 11, 30, 0, 0, 0⟩ := by
  decide

/-- The search for the month and the day left over, from month `i` on. -/
def findMonth : ℕ → List ℕ → ℕ → ℕ × ℕ
  | _, [], day => (0, day)
  | i, n :: counts, day => if day < n then (i, day) else findMonth (i + 1) counts (day - n)

def epoch2dt (epoch : ℤ) : DateTime :=
  let year := ((1970 + epoch.tdiv 31536000) % 2 ^ 32).toNat
  let y := sub32 year 1900
  let rest := epoch - (sub32 y 70 * 31536000 % 2 ^ 32 : ℕ) - (sub32 y 69 / 4 * 86400 % 2 ^ 32 : ℕ) +
    (sub32 y 1 / 100 * 86400 % 2 ^ 32 : ℕ) - ((y + 299) % 2 ^ 32 / 400 * 86400 % 2 ^ 32 : ℕ)
  let found := findMonth 1 dayCountForEachMonth (rest.tdiv 86400 % 65536).toNat
  ⟨year, found.1, found.2 % 256, ((rest.tdiv 3600).tmod 24 % 256).toNat,
    ((rest.tdiv 60).tmod 60 % 256).toNat, (rest.tmod 60 % 256).toNat⟩

theorem findMonth_found (i : ℕ) (counts : List ℕ) (day : ℕ) :
    let found := findMonth i counts day
    found.1 = 0 ∨ i ≤ found.1 ∧ found.2 < counts.getD (found.1 - i) 0 := by
  induction counts generalizing i day with
  | nil => simp [findMonth]
  | cons n counts ih =>
    rw [findMonth]
    split_ifs with h
    · simp [h]
    · refine (ih (i + 1) (day - n)).imp_right fun ⟨hl, ht⟩ => ⟨by omega, ?_⟩
      rwa [show ∀ m, i + 1 ≤ m → m - i = m - (i + 1) + 1 by omega, List.getD_cons_succ]
      exact hl

theorem findMonth_take (counts : List ℕ) (k i day : ℕ) (h : day < counts.getD k 0) :
    findMonth i counts ((counts.take k).sum + day) = (i + k, day) := by
  induction counts generalizing k i with
  | nil => simp at h
  | cons n counts ih =>
    cases k with
    | zero => simp_all [findMonth]
    | succ k =>
      rw [List.take_succ_cons, List.sum_cons, findMonth, if_neg (by omega), add_assoc,
        Nat.add_sub_cancel_left, ih k (i + 1) h, add_right_comm, add_assoc]

theorem epoch2dt_natCast {n e r : ℕ} (hl : n ≤ 136) (hn : e / 31536000 = n)
    (he : e = daysBeforeYear (n + 1970) * 86400 + r) : epoch2dt e =
      let found := findMonth 1 dayCountForEachMonth (r / 86400)
      ⟨n + 1970, found.1, found.2 % 256, r / 3600 % 24, r / 60 % 60, r % 60⟩ := by
  have hd := daysBeforeYear_eq n
  have hy : ((1970 + (e : ℤ).tdiv 31536000) % 2 ^ 32).toNat = n + 1970 := by
    rw [Int.tdiv_eq_ediv_of_nonneg (by omega)]
    omega
  obtain ⟨h1900, h70, h69, h1, h299⟩ := sub32_year hl
  simp (disch := omega) only [epoch2dt, hy, h1900, h70, h69, h1, Nat.mod_eq_of_lt]
  rw [show (e : ℤ) - ↑(n * 31536000) - ↑((n + 1) / 4 * 86400) + ↑((n + 69) / 100 * 86400)
    - ↑((n + 70 + 299) / 400 * 86400) = r by omega]
  simp (disch := omega) only [Int.tdiv_eq_ediv_of_nonneg, Int.tmod_eq_emod_of_nonneg]
  rw [show ((r : ℤ) / 86400 % 65536).toNat = r / 86400 by omega]
  ext <;> dsimp only <;> omega

/-- No date in November or December, and no last day of a month, is ever returned. -/
theorem epoch2dt_day (e : ℤ) : (epoch2dt e).month = 0 ∨
    (epoch2dt e).day < dayCountForEachMonth.getD ((epoch2dt e).month - 1) 0 :=
  (findMonth_found 1 dayCountForEachMonth _).imp_right fun h => (Nat.mod_le _ 256).trans_lt h.2

theorem year_epoch2dt {e : ℕ} (h : e < 86400) : (epoch2dt e).year = 1970 := by
  change ((1970 + (e : ℤ).tdiv 31536000) % 2 ^ 32).toNat = 1970
  rw [Int.tdiv_eq_ediv_of_nonneg (by omega)]
  omega

theorem daySinceJan1_of_lt (h : dt.Valid)
    (hl : dt.day < dayCountForEachMonth.getD (dt.month - 1) 0) : daySinceJan1 dt =
      (dayCountForEachMonth.take (dt.month - 1)).sum + dt.day ∧
        daySinceJan1 dt ≤ 304 ∧ dt.day < 31 := by
  have hb := sum_take_le (dt.month - 1) (by have := h.2.2.1; omega)
  unfold daySinceJan1
  omega

/-- **A date survives exactly when it is before the last day of a month up to October.** -/
theorem epoch2dt_dt2epoch_iff (dt : DateTime) (h : dt.Valid) (hfit : posix dt < 2 ^ 32) :
    epoch2dt (dt2epoch dt) = dt ↔
      dt.day < dayCountForEachMonth.getD (dt.month - 1) 0 ∧ counted dt < 2 ^ 32 := by
  obtain ⟨hyear, hpos, -, -, -, hhour, hmin, hsec⟩ := id h
  obtain ⟨n, hn⟩ := Nat.exists_eq_add_of_le' hyear
  have hdays := daysBeforeYear_eq n
  have hstart : counted dt = daysBeforeYear (n + 1970) * 86400 +
      (daySinceJan1 dt * 86400 + dt.hour * 3600 + dt.minute * 60 + dt.second) := by
    rw [counted, hn]
    omega
  rw [dt2epoch_eq h hfit]
  constructor
  · intro he
    have hlt := epoch2dt_day (counted dt % 2 ^ 32 : ℕ)
    rw [he] at hlt
    replace hlt := hlt.resolve_left (by omega)
    refine ⟨hlt, ?_⟩
    -- a date whose seconds wrap comes back in 1970
    by_contra hwrap
    have hcount := counted_add h
    have hback := (congrArg DateTime.year he).symm.trans (year_epoch2dt (by omega))
    obtain rfl : n = 0 := by omega
    have hjan := daySinceJan1_of_lt h hlt
    omega
  · rintro ⟨hlt, hcount⟩
    obtain ⟨hjan, hle, hday⟩ := daySinceJan1_of_lt h hlt
    rw [Nat.mod_eq_of_lt hcount, epoch2dt_natCast (n := n) (by omega) (by omega) hstart]
    rw [show (daySinceJan1 dt * 86400 + dt.hour * 3600 + dt.minute * 60 + dt.second) / 86400 =
      daySinceJan1 dt by omega, hjan, findMonth_take _ _ _ _ hlt]
    ext <;> dsimp only <;> omega

theorem epoch2dt_dt2epoch_iff_first :
    epoch2dt (dt2epoch ⟨1970, 1, 1, 0, 0, 0⟩) = ⟨1970, 1, 1, 0, 0, 0⟩ :=
  (epoch2dt_dt2epoch_iff _ (by decide) (by decide)).2 (by decide)

theorem epoch2dt_dt2epoch_ne : (DateTime.mk 1970 12 1 0 0 0).Valid ∧
    epoch2dt (dt2epoch ⟨1970, 12, 1, 0, 0, 0⟩) = ⟨1970, 0, 1, 0, 0, 0⟩ := by
  decide

end AexKernel.Sys
