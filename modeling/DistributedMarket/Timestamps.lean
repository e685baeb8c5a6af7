import DistributedMarket.Clock
import DistributedMarket.Ids
import DistributedMarket.Lib.Calendar
import DistributedMarket.Lib.ZeroPadded
import Mathlib.Tactic.Tauto

/-!
The two times of an event.

An event carries its time twice: as the text `format_timestamp` makes of the
clock, and in the ids minted from the same clock. The text is cut to
milliseconds and padded to fixed fields, so texts are in the order of their
milliseconds (`formatTimestamp_lt_iff`). Ids go through a float, and agree
with the text where the clock is sharp; elsewhere they may be a millisecond
behind it (`ids_follow_timestamps`).
-/

namespace DistributedMarket

open Lib

/-- A `datetime` in UTC, as every clock gives. -/
structure DateTime where
  year : ℕ
  month : ℕ
  day : ℕ
  hour : ℕ
  minute : ℕ
  second : ℕ
  microsecond : ℕ
  year_le : year ≤ 9999
  date : Calendar.Valid year month day
  hour_lt : hour < 24
  minute_lt : minute < 60
  second_lt : second < 60
  microsecond_lt : microsecond < 10 ^ 6

namespace DateTime

/-- The microseconds from the epoch, whose day is 719163. -/
def micros (moment : DateTime) : ℤ :=
  ((Calendar.ymd2ord moment.year moment.month moment.day - 719163) * 86400 +
    (moment.hour * 3600 + moment.minute * 60 + moment.second)) * 10 ^ 6 + moment.microsecond

/-- `moment.isoformat(timespec="milliseconds")`. -/
def isoformat (moment : DateTime) : List Char :=
  ZeroPadded.zfill 4 moment.year ++ '-' ::
    (ZeroPadded.zfill 2 moment.month ++ '-' ::
      (ZeroPadded.zfill 2 moment.day ++ 'T' ::
        (ZeroPadded.zfill 2 moment.hour ++ ':' ::
          (ZeroPadded.zfill 2 moment.minute ++ ':' ::
            (ZeroPadded.zfill 2 moment.second ++ '.' ::
              (ZeroPadded.zfill 3 (moment.microsecond / 1000) ++ "+00:00".toList))))))

end DateTime

/-- RFC3339 with milliseconds, the form every event carries. -/
def formatTimestamp (moment : DateTime) : String := String.ofList moment.isoformat

/-- The start of a `FixedClock`. -/
def fixedStart : DateTime where
  year := 2026
  month := 1
  day := 1
  hour := 0
  minute := 0
  second := 0
  microsecond := 0
  year_le := by decide
  date := ⟨by decide, by decide, by decide⟩
  hour_lt := by decide
  minute_lt := by decide
  second_lt := by decide
  microsecond_lt := by decide

example : formatTimestamp fixedStart = "2026-01-01T00:00:00.000+00:00" := by decide

namespace DateTime

variable (a b : DateTime)

/-- The time of the day and its milliseconds. -/
def clockMs (moment : DateTime) : ℕ :=
  moment.hour * 3600000 +
    (moment.minute * 60000 + (moment.second * 1000 + moment.microsecond / 1000))

theorem clockMs_lt : a.clockMs < 86400000 := by
  have := a.hour_lt
  have := a.minute_lt
  have := a.second_lt
  have := a.microsecond_lt
  unfold clockMs
  omega

/-- Milliseconds from the epoch: whole days, and the time of the day. -/
theorem micros_div : a.micros / 1000 =
    ((Calendar.ymd2ord a.year a.month a.day * 86400000 + a.clockMs : ℕ) : ℤ) -
      719163 * 86400000 := by
  unfold micros clockMs
  push_cast
  omega

theorem clockMs_lt_iff : a.clockMs < b.clockMs ↔
    a.hour < b.hour ∨ a.hour = b.hour ∧ (a.minute < b.minute ∨ a.minute = b.minute ∧
      (a.second < b.second ∨ a.second = b.second ∧
        a.microsecond / 1000 < b.microsecond / 1000)) := by
  have := a.minute_lt
  have := a.second_lt
  have := a.microsecond_lt
  have := b.minute_lt
  have := b.second_lt
  have := b.microsecond_lt
  unfold clockMs
  omega

theorem micros_div_lt_iff : a.micros / 1000 < b.micros / 1000 ↔
    Calendar.ymd2ord a.year a.month a.day < Calendar.ymd2ord b.year b.month b.day ∨
      Calendar.ymd2ord a.year a.month a.day = Calendar.ymd2ord b.year b.month b.day ∧
        a.clockMs < b.clockMs := by
  rw [micros_div, micros_div, sub_lt_sub_iff_right, Nat.cast_lt,
    Calendar.mul_add_lt_iff a.clockMs_lt b.clockMs_lt]

theorem isoformat_lt_iff : a.isoformat < b.isoformat ↔
    a.year < b.year ∨ a.year = b.year ∧ (a.month < b.month ∨ a.month = b.month ∧
      (a.day < b.day ∨ a.day = b.day ∧ a.clockMs < b.clockMs)) := by
  have hfits : ∀ m : DateTime, m.year < 10 ^ 4 ∧ m.month < 10 ^ 2 ∧ m.day < 10 ^ 2 ∧
      m.hour < 10 ^ 2 ∧ m.minute < 10 ^ 2 ∧ m.second < 10 ^ 2 ∧
      m.microsecond / 1000 < 10 ^ 3 := by
    intro m
    have := m.year_le
    have := m.date.month_range
    have := m.date.day_le
    have := m.hour_lt
    have := m.minute_lt
    have := m.second_lt
    have := m.microsecond_lt
    omega
  obtain ⟨hyear, hmonth, hday, hhour, hminute, hsecond, hms⟩ := hfits a
  obtain ⟨hyear', hmonth', hday', hhour', hminute', hsecond', hms'⟩ := hfits b
  rw [isoformat, isoformat, ZeroPadded.zfill_append_lt_iff (by decide) hyear hyear',
    List.cons_lt_cons_self, ZeroPadded.zfill_append_lt_iff (by decide) hmonth hmonth',
    List.cons_lt_cons_self, ZeroPadded.zfill_append_lt_iff (by decide) hday hday',
    List.cons_lt_cons_self, ZeroPadded.zfill_append_lt_iff (by decide) hhour hhour',
    List.cons_lt_cons_self, ZeroPadded.zfill_append_lt_iff (by decide) hminute hminute',
    List.cons_lt_cons_self, ZeroPadded.zfill_append_lt_iff (by decide) hsecond hsecond',
    List.cons_lt_cons_self, ZeroPadded.zfill_append_lt_iff (by decide) hms hms',
    clockMs_lt_iff]
  simp only [lt_irrefl, and_false, or_false]

end DateTime

theorem formatTimestamp_lt (a b : DateTime) :
    formatTimestamp a < formatTimestamp b ↔ a.micros / 1000 < b.micros / 1000 := by
  rw [formatTimestamp, formatTimestamp, String.lt_iff_toList_lt, String.toList_ofList,
    String.toList_ofList, DateTime.isoformat_lt_iff, DateTime.micros_div_lt_iff,
    Calendar.ymd2ord_lt_iff a.date b.date, Calendar.ymd2ord_eq_iff a.date b.date]
  tauto

theorem formatTimestamp_inj (a b : DateTime) :
    formatTimestamp a = formatTimestamp b ↔ a.micros / 1000 = b.micros / 1000 := by
  rw [eq_iff_le_not_lt, ← not_lt, formatTimestamp_lt, formatTimestamp_lt]
  omega

/-- **Event times are in the order of their milliseconds**, and differ when
these do. -/
theorem formatTimestamp_lt_iff (a b : DateTime) :
    (formatTimestamp a < formatTimestamp b ↔ a.micros / 1000 < b.micros / 1000) ∧
      (formatTimestamp a = formatTimestamp b ↔ a.micros / 1000 = b.micros / 1000) :=
  ⟨formatTimestamp_lt a b, formatTimestamp_inj a b⟩

/-! ### Ids minted from the clock -/

/-- `make_ulid(clock, randomness)` where `clock.now()` is `moment`. -/
def ulidAt (moment : DateTime) (drawn : ℤ) (randomness : Option ℤ) : String :=
  Ids.makeUlid (Clock.timestampMs moment.micros) drawn randomness

/-- From 1970 to 2242. -/
def DateTime.Supported (moment : DateTime) : Prop :=
  0 ≤ moment.micros ∧ moment.micros < 2 ^ 33 * 10 ^ 6

/-- 80 bits. -/
def Entropy (drawn : ℤ) (randomness : Option ℤ) : Prop :=
  0 ≤ randomness.getD drawn ∧ randomness.getD drawn < 2 ^ Ids.randomBits

/-- Every clock is within nine thousand years of the epoch. -/
theorem DateTime.abs_timestampMs_le (moment : DateTime) :
    |Clock.timestampMs moment.micros| ≤ 2 ^ 38 * 1000 := by
  apply Clock.abs_timestampMs_le
  have hlow := moment.date.day_range.1
  have hhigh := moment.date.ymd2ord_le
  have hyear := moment.year_le
  have hhour := moment.hour_lt
  have hminute := moment.minute_lt
  have hsecond := moment.second_lt
  have hmicrosecond := moment.microsecond_lt
  rw [abs_le, DateTime.micros]
  omega

theorem DateTime.Supported.timestampMs {moment : DateTime} (h : moment.Supported) :
    0 ≤ Clock.timestampMs moment.micros ∧ Clock.timestampMs moment.micros < 32 ^ 10 := by
  have hzero : Clock.timestampMs 0 = 0 := by
    simp [Clock.timestampMs, Clock.timestamp, Clock.float, truncate]
  have hmono := Clock.timestampMs_mono h.1
  rw [hzero] at hmono
  have hhigh := (abs_le.mp moment.abs_timestampMs_le).2
  exact ⟨hmono, by omega⟩

section

variable {a b : DateTime} {drawn drawn' : ℤ} {given given' : Option ℤ}

/-- Ids of any clock are compared by what ten digits keep of its
milliseconds. -/
theorem ulidAt_lt_iff_emod (hentropy : Entropy drawn given) (hentropy' : Entropy drawn' given') :
    ulidAt a drawn given < ulidAt b drawn' given' ↔
      Clock.timestampMs a.micros % 32 ^ 10 < Clock.timestampMs b.micros % 32 ^ 10 ∨
        Clock.timestampMs a.micros % 32 ^ 10 = Clock.timestampMs b.micros % 32 ^ 10 ∧
          given.getD drawn < given'.getD drawn' := by
  have hbits : (2 : ℤ) ^ Ids.randomBits = (32 : ℕ) ^ 16 := by decide
  rw [Entropy, hbits] at hentropy hentropy'
  rw [ulidAt, ulidAt, String.lt_iff_toList_lt, Ids.toList_makeUlid, Ids.toList_makeUlid,
    Positional.append_lt_append_iff (by simp),
    Positional.encode_emod_lt_iff Ids.symbol_strictMono,
    Positional.encode_emod_inj Ids.symbol_strictMono.injective,
    Positional.encode_lt_iff Ids.symbol_strictMono hentropy hentropy']
  rfl

theorem ulidAt_lt_iff (ha : a.Supported) (hb : b.Supported) (hentropy : Entropy drawn given)
    (hentropy' : Entropy drawn' given') :
    ulidAt a drawn given < ulidAt b drawn' given' ↔
      Clock.timestampMs a.micros < Clock.timestampMs b.micros ∨
        Clock.timestampMs a.micros = Clock.timestampMs b.micros ∧
          given.getD drawn < given'.getD drawn' := by
  obtain ⟨hlow, hhigh⟩ := ha.timestampMs
  obtain ⟨hlow', hhigh'⟩ := hb.timestampMs
  rw [ulidAt_lt_iff_emod hentropy hentropy', Int.emod_eq_of_lt hlow hhigh,
    Int.emod_eq_of_lt hlow' hhigh']

/-- Instants more than a millisecond apart. -/
theorem timestampMs_lt (ha : a.Supported) (hb : b.Supported) (h : a.micros + 1000 < b.micros) :
    Clock.timestampMs a.micros < Clock.timestampMs b.micros := by
  rcases Clock.timestampMs_near ha.1 ha.2 with heq | ⟨heq, -⟩ <;>
    rcases Clock.timestampMs_near hb.1 hb.2 with heq' | ⟨heq', hwhole⟩ <;> omega

/-- **Ids against event times.** An id minted later is never of an earlier
millisecond; it comes after one minted more than a millisecond before; and
where the clock is sharp, ids are in the order of the times of their events,
and within a millisecond in the order of their entropy. -/
theorem ids_follow_timestamps (ha : a.Supported) (hb : b.Supported)
    (hentropy : Entropy drawn given) (hentropy' : Entropy drawn' given') :
    (a.micros ≤ b.micros →
        Clock.timestampMs a.micros ≤ Clock.timestampMs b.micros) ∧
      (a.micros + 1000 < b.micros → ulidAt a drawn given < ulidAt b drawn' given') ∧
      (Clock.Sharp a.micros → Clock.Sharp b.micros →
        (ulidAt a drawn given < ulidAt b drawn' given' ↔
          formatTimestamp a < formatTimestamp b ∨
            formatTimestamp a = formatTimestamp b ∧ given.getD drawn < given'.getD drawn')) := by
  have hulid := ulidAt_lt_iff ha hb hentropy hentropy'
  refine ⟨fun hle => Clock.timestampMs_mono hle, fun hapart => ?_, fun hsharp hsharp' => ?_⟩
  · exact hulid.mpr (Or.inl (timestampMs_lt ha hb hapart))
  · rw [hulid, formatTimestamp_lt, formatTimestamp_inj,
      Clock.timestampMs_of_sharp hsharp, Clock.timestampMs_of_sharp hsharp']

end

/-- Noon of the next day but one. -/
def fixedNoon : DateTime := { fixedStart with
  day := 3
  hour := 12
  date := ⟨by decide, by decide, by decide⟩
  hour_lt := by decide }

theorem ids_follow_timestamps_at_noon :
    fixedStart.micros + 1000 < fixedNoon.micros ∧
      ulidAt fixedStart 0 (some 9) < ulidAt fixedNoon 0 (some 3) ∧
      (ulidAt fixedStart 0 (some 9) < ulidAt fixedNoon 0 (some 3) ↔
        formatTimestamp fixedStart < formatTimestamp fixedNoon ∨
          formatTimestamp fixedStart = formatTimestamp fixedNoon ∧ (9 : ℤ) < 3) := by
  have hspec := ids_follow_timestamps (a := fixedStart) (b := fixedNoon) ⟨by decide, by decide⟩
    ⟨by decide, by decide⟩ (⟨by decide, by decide⟩ : Entropy 0 (some 9))
    (⟨by decide, by decide⟩ : Entropy 0 (some 3))
  have hapart : fixedStart.micros + 1000 < fixedNoon.micros := by decide
  exact ⟨hapart, hspec.2.1 hapart,
    hspec.2.2 (Clock.sharp_until_2038 (by decide) (by decide))
      (Clock.sharp_until_2038 (by decide) (by decide))⟩

/-- Half a millisecond after the seconds outgrow 31 bits. -/
def early2038 : DateTime where
  year := 2038
  month := 1
  day := 19
  hour := 3
  minute := 14
  second := 8
  microsecond := 1500
  year_le := by decide
  date := ⟨by decide, by decide, by decide⟩
  hour_lt := by decide
  minute_lt := by decide
  second_lt := by decide
  microsecond_lt := by decide

def late2038 : DateTime := { early2038 with
  microsecond := 2000
  microsecond_lt := by decide }

/-- There the ids of two milliseconds are told apart by their entropy only,
and may be in the other order than their times. -/
theorem ids_disagree_in_2038 :
    formatTimestamp early2038 < formatTimestamp late2038 ∧
      ulidAt late2038 0 (some 0) < ulidAt early2038 0 (some 1) := by
  have hmicros : early2038.micros = 2147483648001500 := by decide
  have hmicros' : late2038.micros = 2147483648002000 := by decide
  have hearly : Clock.timestampMs 2147483648001500 = 2147483648001 := by
    have hlt : (2147483648001500 : ℤ) < 2 ^ 33 * 10 ^ 6 := by decide
    rcases Clock.timestampMs_near (by decide) hlt with h | ⟨-, h⟩
    · exact h
    · contradiction
  refine ⟨(formatTimestamp_lt early2038 late2038).mpr (by decide), ?_⟩
  rw [ulidAt_lt_iff ⟨by decide, by decide⟩ ⟨by decide, by decide⟩ ⟨by decide, by decide⟩
    ⟨by decide, by decide⟩, hmicros, hmicros', hearly, Clock.timestampMs_in_2038]
  exact Or.inr ⟨rfl, by decide⟩

end DistributedMarket
