import Mathlib.Data.List.Basic

/-!
# The clock

`rtc_read_time` reads the clock one register at a time, while the clock goes on. It reads all of them
twice and begins anew where the two readings differ. What the registers hold is told by the status
register: numbers or decimal digits, 24 hours or 12 with a bit for the afternoon.
-/

namespace MinervaOS.Devices

/-- What the fields are read into. The year is the two digits of the register. -/
structure RtcRaw where
  second : UInt8
  minute : UInt8
  hour : UInt8
  day : UInt8
  month : UInt8
  year : UInt8
  deriving DecidableEq

structure RtcTime where
  year : UInt16
  month : UInt8
  day : UInt8
  hour : UInt8
  minute : UInt8
  second : UInt8
  yyyymmdd : UInt32
  deriving DecidableEq

section

-- the registers at each read
variable (regs : ℕ → UInt8 → UInt8)

def cmosRead (reg : UInt8) : StateM ℕ UInt8 := fun n => (regs n reg, n + 1)

def rtcUpdateInProgress : StateM ℕ Bool := do return (← cmosRead regs 0x0A) &&& 0x80 != 0

/-- The loop that waits for an update to end. -/
def waitForUpdate : ℕ → StateM ℕ Unit
  | 0 => return ()
  | wait + 1 => do if ← rtcUpdateInProgress regs then waitForUpdate wait

def rtcReadRaw : StateM ℕ RtcRaw := do
  let second ← cmosRead regs 0x00
  let minute ← cmosRead regs 0x02
  let hour ← cmosRead regs 0x04
  let day ← cmosRead regs 0x07
  let month ← cmosRead regs 0x08
  let year ← cmosRead regs 0x09
  return ⟨second, minute, hour, day, month, year⟩

/-- The loop over the attempts, where `a` is what has been read last. -/
def readAttempts : ℕ → RtcRaw → StateM ℕ RtcRaw
  | 0, a => return a
  | attempts + 1, _ => do
    let a ← rtcReadRaw regs
    let b ← rtcReadRaw regs
    if a = b then return a else readAttempts attempts a

end

def bcdToBin (value : UInt8) : UInt8 := (value &&& (0x0F : UInt8)) + (value >>> 4) * 10

/-- What the digits say. -/
def RtcRaw.fromBcd (a : RtcRaw) : RtcRaw where
  second := bcdToBin a.second
  minute := bcdToBin a.minute
  hour := a.hour &&& 0x80 ||| bcdToBin (a.hour &&& 0x7F)
  day := bcdToBin a.day
  month := bcdToBin a.month
  year := bcdToBin a.year

/-- The fields as numbers, the hour out of 24. -/
def rtcConvert (statusB : UInt8) (a : RtcRaw) : RtcRaw :=
  let a := if statusB &&& 0x04 == 0 then a.fromBcd else a
  if statusB &&& 0x02 == 0 && a.hour &&& 0x80 != 0 then
    { a with hour := UInt8.ofNat (((a.hour &&& 0x7F).toNat + 12) % 24) }
  else a

/-- The time, or `none` where it is not valid. -/
def rtcTime (a : RtcRaw) : Option RtcTime :=
  let year : UInt16 := if a.year ≥ 70 then 1900 + a.year.toUInt16 else 2000 + a.year.toUInt16
  if a.month < 1 ∨ a.month > 12 ∨ a.day < 1 ∨ a.day > 31 ∨ a.hour > 23 ∨ a.minute > 59 ∨
      a.second > 59 then none
  else
    some
      { year
        month := a.month
        day := a.day
        hour := a.hour
        minute := a.minute
        second := a.second
        yyyymmdd := year.toUInt32 * 10000 + a.month.toUInt32 * 100 + a.day.toUInt32 }

def rtcReadTime (regs : ℕ → UInt8 → UInt8) : StateM ℕ (Option RtcTime) := do
  waitForUpdate regs 1000000
  let a ← readAttempts regs 3 ⟨0, 0, 0, 0, 0, 0⟩
  let statusB ← cmosRead regs 0x0B
  return rtcTime (rtcConvert statusB a)

/-! ## What the clock shows -/

/-- A moment that two digits of the year are enough for. -/
structure Moment where
  year : ℕ
  month : ℕ
  day : ℕ
  hour : ℕ
  minute : ℕ
  second : ℕ
  year_mem : 1970 ≤ year ∧ year < 2070
  month_mem : 1 ≤ month ∧ month ≤ 12
  day_mem : 1 ≤ day ∧ day ≤ 31
  hour_lt : hour < 24
  minute_lt : minute < 60
  second_lt : second < 60

/-- A number below 100 in a register. -/
def encode (statusB : UInt8) (n : ℕ) : UInt8 :=
  if statusB &&& 0x04 == 0 then UInt8.ofNat (n / 10 * 16 + n % 10) else UInt8.ofNat n

/-- Twelve hours are counted from 12 to 11. -/
def encodeHour (statusB : UInt8) (hour : ℕ) : UInt8 :=
  if statusB &&& 0x02 == 0 then
    encode statusB (if hour % 12 = 0 then 12 else hour % 12) ||| if hour < 12 then 0 else 0x80
  else encode statusB hour

def Moment.raw (statusB : UInt8) (t : Moment) : RtcRaw where
  second := encode statusB t.second
  minute := encode statusB t.minute
  hour := encodeHour statusB t.hour
  day := encode statusB t.day
  month := encode statusB t.month
  year := encode statusB (t.year % 100)

/-- The registers show the moment. -/
structure Shows (statusB : UInt8) (t : Moment) (regs : UInt8 → UInt8) : Prop where
  raw : (⟨regs 0x00, regs 0x02, regs 0x04, regs 0x07, regs 0x08, regs 0x09⟩ : RtcRaw) =
    t.raw statusB
  statusB : regs 0x0B = statusB

/-- What the code makes of the hour: of twelve hours, the first of the night and the first of the
day are taken for each other. -/
def toldHour (statusB : UInt8) (hour : ℕ) : ℕ :=
  if statusB &&& 0x02 == 0 && hour % 12 == 0 then (hour + 12) % 24 else hour

def Moment.told (statusB : UInt8) (t : Moment) : RtcTime where
  year := UInt16.ofNat t.year
  month := UInt8.ofNat t.month
  day := UInt8.ofNat t.day
  hour := UInt8.ofNat (toldHour statusB t.hour)
  minute := UInt8.ofNat t.minute
  second := UInt8.ofNat t.second
  yyyymmdd := UInt32.ofNat (t.year * 10000 + t.month * 100 + t.day)

/-! ## Reading twice -/

section Attempts

variable {regs : ℕ → UInt8 → UInt8} {p : ℕ} {x y : RtcRaw}

/-- What a reading that begins with read `n` yields. -/
def rawFrom (regs : ℕ → UInt8 → UInt8) (n : ℕ) : RtcRaw :=
  ⟨regs n 0x00, regs (n + 1) 0x02, regs (n + 2) 0x04, regs (n + 3) 0x07, regs (n + 4) 0x08,
    regs (n + 5) 0x09⟩

theorem rtcReadRaw_eq (n : ℕ) : rtcReadRaw regs n = (rawFrom regs n, n + 6) := rfl

/-- The clock goes on at read `p`: readings that end before are `x`, those that begin later `y`. -/
structure Ticks (regs : ℕ → UInt8 → UInt8) (p : ℕ) (x y : RtcRaw) : Prop where
  before : ∀ n, n + 6 ≤ p → rawFrom regs n = x
  behind : ∀ n, p ≤ n → rawFrom regs n = y

theorem readAttempts_succ (attempts n : ℕ) (a : RtcRaw) :
    readAttempts regs (attempts + 1) a n =
      if rawFrom regs n = rawFrom regs (n + 6) then (rawFrom regs n, n + 12)
      else readAttempts regs attempts (rawFrom regs n) (n + 12) := by
  show (if rawFrom regs n = rawFrom regs (n + 6) then pure (rawFrom regs n)
    else readAttempts regs attempts (rawFrom regs n) : StateM ℕ RtcRaw) (n + 12) = _
  split_ifs <;> rfl

/-- Two attempts are enough for one of the two. -/
theorem readAttempts_ticks (h : Ticks regs p x y) (attempts n : ℕ) (a : RtcRaw) :
    (readAttempts regs (attempts + 2) a n).1 = x ∨ (readAttempts regs (attempts + 2) a n).1 = y := by
  have hbehind : ∀ m b, p ≤ m → (readAttempts regs (attempts + 1) b m).1 = y := fun m b hm => by
    rw [readAttempts_succ, h.behind m hm, h.behind (m + 6) (by omega), if_pos rfl]
  rw [readAttempts_succ]
  by_cases hearly : n + 12 ≤ p
  · rw [h.before n (by omega), h.before (n + 6) (by omega), if_pos rfl]
    exact .inl rfl
  · split
    · rename_i hsame
      by_cases hfirst : n + 6 ≤ p
      · exact .inl (h.before n hfirst)
      · exact .inr (hsame.trans (h.behind (n + 6) (by omega)))
    · exact .inr (hbehind _ _ (by omega))

end Attempts

/-! ## From the registers to the time -/

theorem binary_cases (statusB : UInt8) :
    (statusB &&& 0x04 == 0) = true ∨ (statusB &&& 0x04 == 0) = false := by
  cases statusB &&& 0x04 == 0 <;> simp

/-- Two digits come back. -/
theorem bcdToBin_digits : ∀ n : Fin 100,
    bcdToBin (UInt8.ofNat (n.val / 10 * 16 + n.val % 10)) = UInt8.ofNat n.val := by
  decide +kernel

/-- So a field comes back. -/
theorem decode_encode (statusB : UInt8) {n : ℕ} (h : n < 100) :
    (if statusB &&& 0x04 == 0 then bcdToBin (encode statusB n) else encode statusB n) =
      UInt8.ofNat n := by
  unfold encode
  split
  · exact bcdToBin_digits ⟨n, h⟩
  · rfl

/-- The hour behind both conversions. -/
def decodeHour (statusB hour : UInt8) : UInt8 :=
  let hour := if statusB &&& 0x04 == 0 then hour &&& 0x80 ||| bcdToBin (hour &&& 0x7F) else hour
  if statusB &&& 0x02 == 0 && hour &&& 0x80 != 0 then
    UInt8.ofNat (((hour &&& 0x7F).toNat + 12) % 24)
  else hour

theorem decodeHour_encodeHour (statusB : UInt8) {hour : ℕ} (h : hour < 24) :
    decodeHour statusB (encodeHour statusB hour) = UInt8.ofNat (toldHour statusB hour) := by
  have hall : ∀ (digits twelve : Bool) (hour : Fin 24),
      (let shown := fun n => if digits then UInt8.ofNat (n / 10 * 16 + n % 10) else UInt8.ofNat n
        let shown := if twelve then
            shown (if hour.val % 12 = 0 then 12 else hour.val % 12) |||
              if hour.val < 12 then (0 : UInt8) else 0x80
          else shown hour.val
        let read := if digits then shown &&& 0x80 ||| bcdToBin (shown &&& 0x7F) else shown
        if twelve && read &&& 0x80 != 0 then UInt8.ofNat (((read &&& 0x7F).toNat + 12) % 24)
        else read) =
      UInt8.ofNat (if twelve && hour.val % 12 == 0 then (hour.val + 12) % 24 else hour.val) := by
    decide +kernel
  exact hall (statusB &&& 0x04 == 0) (statusB &&& 0x02 == 0) ⟨hour, h⟩

theorem shown_raw {statusB : UInt8} {t : Moment} {regs : UInt8 → UInt8} (h : Shows statusB t regs) :
    regs 0x00 = (t.raw statusB).second ∧ regs 0x02 = (t.raw statusB).minute ∧
      regs 0x04 = (t.raw statusB).hour ∧ regs 0x07 = (t.raw statusB).day ∧
        regs 0x08 = (t.raw statusB).month ∧ regs 0x09 = (t.raw statusB).year := by
  rw [← h.raw]
  exact ⟨rfl, rfl, rfl, rfl, rfl, rfl⟩

theorem rawFrom_shown {statusB : UInt8} {t : Moment} {regs : ℕ → UInt8 → UInt8} {n : ℕ}
    (h : ∀ i < 6, Shows statusB t (regs (n + i))) : rawFrom regs n = t.raw statusB := by
  have h0 : regs n 0x00 = _ := (shown_raw (h 0 (by decide))).1
  have h1 := (shown_raw (h 1 (by decide))).2.1
  have h2 := (shown_raw (h 2 (by decide))).2.2.1
  have h3 := (shown_raw (h 3 (by decide))).2.2.2.1
  have h4 := (shown_raw (h 4 (by decide))).2.2.2.2.1
  have h5 := (shown_raw (h 5 (by decide))).2.2.2.2.2
  rw [rawFrom, h0, h1, h2, h3, h4, h5]

theorem ticks_of_shows {statusB : UInt8} {t t' : Moment} {regs : ℕ → UInt8 → UInt8} {p : ℕ}
    (h : ∀ n < p, Shows statusB t (regs n)) (h' : ∀ n, p ≤ n → Shows statusB t' (regs n)) :
    Ticks regs p (t.raw statusB) (t'.raw statusB) where
  before n hn := rawFrom_shown fun i hi => h (n + i) (by omega)
  behind n hn := rawFrom_shown fun i _ => h' (n + i) (by omega)

/-- Each field on its own. -/
theorem rtcConvert_eq (statusB : UInt8) (a : RtcRaw) :
    let field := fun value : UInt8 => if statusB &&& 0x04 == 0 then bcdToBin value else value
    rtcConvert statusB a =
      { second := field a.second
        minute := field a.minute
        hour := decodeHour statusB a.hour
        day := field a.day
        month := field a.month
        year := field a.year } := by
  unfold rtcConvert decodeHour
  cases statusB &&& 0x04 == 0 <;>
    simp only [RtcRaw.fromBcd, Bool.false_eq_true, if_true, if_false] <;> split <;> rfl

/-- The fields come back, but for the hour. -/
theorem rtcConvert_raw (statusB : UInt8) (t : Moment) : rtcConvert statusB (t.raw statusB) =
    { second := UInt8.ofNat t.second
      minute := UInt8.ofNat t.minute
      hour := UInt8.ofNat (toldHour statusB t.hour)
      day := UInt8.ofNat t.day
      month := UInt8.ofNat t.month
      year := UInt8.ofNat (t.year % 100) } := by
  have hsecond := decode_encode statusB (Nat.lt_trans t.second_lt (show 60 < 100 by decide))
  have hminute := decode_encode statusB (Nat.lt_trans t.minute_lt (show 60 < 100 by decide))
  have hday := decode_encode statusB (Nat.lt_of_le_of_lt t.day_mem.2 (show 31 < 100 by decide))
  have hmonth := decode_encode statusB (Nat.lt_of_le_of_lt t.month_mem.2 (show 12 < 100 by decide))
  have hyear := decode_encode statusB (Nat.mod_lt t.year (show 100 > 0 by decide))
  rw [rtcConvert_eq, ← hsecond, ← hminute, ← hday, ← hmonth, ← hyear,
    ← decodeHour_encodeHour statusB t.hour_lt]
  rfl

/-- The year of two digits. -/
theorem year_of_digits {year : ℕ} (h : 1970 ≤ year ∧ year < 2070) :
    (if UInt8.ofNat (year % 100) ≥ 70 then 1900 + (UInt8.ofNat (year % 100)).toUInt16
      else 2000 + (UInt8.ofNat (year % 100)).toUInt16) = UInt16.ofNat year := by
  have hall : ∀ n : Fin 100, (if UInt8.ofNat ((1970 + n.val) % 100) ≥ 70 then
      1900 + (UInt8.ofNat ((1970 + n.val) % 100)).toUInt16
      else 2000 + (UInt8.ofNat ((1970 + n.val) % 100)).toUInt16) = UInt16.ofNat (1970 + n.val) := by
    decide +kernel
  have hthis := hall ⟨year - 1970, by omega⟩
  rwa [Nat.add_sub_cancel' h.1] at hthis

theorem toNat_ofNat {n : ℕ} (h : n < 256) : (UInt8.ofNat n).toNat = n := by
  rw [UInt8.toNat_ofNat', Nat.mod_eq_of_lt h]

theorem toldHour_lt (statusB : UInt8) {hour : ℕ} (h : hour < 24) : toldHour statusB hour < 24 := by
  unfold toldHour
  split
  · exact Nat.mod_lt _ (by decide)
  · exact h

/-- Every moment is valid. -/
theorem rtcTime_raw (statusB : UInt8) (t : Moment) :
    rtcTime (rtcConvert statusB (t.raw statusB)) = some (t.told statusB) := by
  obtain ⟨hyear, hyear'⟩ := t.year_mem
  obtain ⟨hmonth, hmonth'⟩ := t.month_mem
  obtain ⟨hday, hday'⟩ := t.day_mem
  have hhour := toldHour_lt statusB t.hour_lt
  have hminute := t.minute_lt
  have hsecond := t.second_lt
  have hdate : (UInt16.ofNat t.year).toUInt32 * 10000 + (UInt8.ofNat t.month).toUInt32 * 100 +
      (UInt8.ofNat t.day).toUInt32 = UInt32.ofNat (t.year * 10000 + t.month * 100 + t.day) := by
    rw [← UInt32.toNat_inj]
    simp only [UInt32.toNat_add, UInt32.toNat_mul, UInt16.toNat_toUInt32, UInt8.toNat_toUInt32,
      UInt16.toNat_ofNat', UInt8.toNat_ofNat', UInt32.toNat_ofNat', UInt32.reduceToNat]
    rw [Nat.mod_eq_of_lt (show t.year < 2 ^ 16 by omega),
      Nat.mod_eq_of_lt (show t.month < 2 ^ 8 by omega), Nat.mod_eq_of_lt (show t.day < 2 ^ 8 by omega)]
    omega
  rw [rtcConvert_raw, rtcTime]
  dsimp only
  rw [year_of_digits t.year_mem, hdate, if_neg]
  · rfl
  · simp only [UInt8.lt_iff_toNat_lt, gt_iff_lt, not_or, Nat.not_lt]
    rw [toNat_ofNat (n := t.month) (by omega), toNat_ofNat (n := t.day) (by omega),
      toNat_ofNat (n := t.minute) (by omega), toNat_ofNat (n := t.second) (by omega),
      toNat_ofNat (n := toldHour statusB t.hour) (by omega)]
    exact ⟨hmonth, hmonth', hday, hday', Nat.le_of_lt_succ hhour, Nat.le_of_lt_succ hminute,
      Nat.le_of_lt_succ hsecond⟩

/-- While the clock goes on at most once, the call yields one of the two moments, but that of twelve
hours it takes midnight and noon for each other. -/
theorem rtcReadTime_moment {regs : ℕ → UInt8 → UInt8} {statusB : UInt8} {t t' : Moment} {p : ℕ}
    (h : ∀ n < p, Shows statusB t (regs n)) (h' : ∀ n, p ≤ n → Shows statusB t' (regs n)) (n : ℕ) :
    (rtcReadTime regs n).1 = some (t.told statusB) ∨
      (rtcReadTime regs n).1 = some (t'.told statusB) := by
  have hticks := ticks_of_shows h h'
  have hstatus : ∀ n, regs n 0x0B = statusB := fun n => by
    by_cases hn : n < p
    · exact (h n hn).statusB
    · exact (h' n (Nat.not_lt.1 hn)).statusB
  generalize hwait : (waitForUpdate regs 1000000 n).2 = m
  generalize hread : readAttempts regs 3 ⟨0, 0, 0, 0, 0, 0⟩ m = read
  have htime : (rtcReadTime regs n).1 = rtcTime (rtcConvert statusB read.1) := by
    rw [← hread, ← hwait, ← hstatus (readAttempts regs 3 ⟨0, 0, 0, 0, 0, 0⟩
      (waitForUpdate regs 1000000 n).2).2]
    rfl
  rw [htime]
  obtain hx | hy := readAttempts_ticks hticks 1 m ⟨0, 0, 0, 0, 0, 0⟩
  · rw [hread] at hx
    rw [hx]
    exact .inl (rtcTime_raw statusB t)
  · rw [hread] at hy
    rw [hy]
    exact .inr (rtcTime_raw statusB t')

/-- A leap day, shortly after noon. -/
def leapDay : Moment :=
  ⟨2024, 2, 29, 12, 34, 56, by decide, by decide, by decide, by decide, by decide, by decide⟩

/-- The registers in decimal digits, of twelve hours. -/
def leapDayRegs (reg : UInt8) : UInt8 :=
  if reg = 0x00 then 0x56
  else if reg = 0x02 then 0x34
  else if reg = 0x04 then 0x92
  else if reg = 0x07 then 0x29
  else if reg = 0x08 then 0x02
  else if reg = 0x09 then 0x24
  else 0

theorem rtcReadTime_leapDay :
    (rtcReadTime (fun _ => leapDayRegs) 0).1 = some (leapDay.told 0) ∨
      (rtcReadTime (fun _ => leapDayRegs) 0).1 = some (leapDay.told 0) :=
  rtcReadTime_moment (p := 0) (fun _ hn => absurd hn (Nat.not_lt_zero _))
    (fun _ _ => ⟨by decide, rfl⟩) 0

end MinervaOS.Devices
