import Mathlib.Algebra.Order.Ring.Nat
import BouffaloSdk.Kit.Runs
import BouffaloSdk.Sys.Bl616Lp

/-!
# Time across sleeps

The virtual time of `drivers/sys/bl616/bl616_lp.c`. The mtimer counts while the chip is awake
and may start again after a sleep; the counter of the RTC counts the sleep. Its 40 bits are
turned into microseconds before the difference is taken, so a counter that wraps during a
sleep takes a whole period from the time.
-/

namespace BouffaloSdk.Lp

open Kit.Runs

/-- The timestamps around a sleep, and the base. -/
structure Vtime where
  rtcTimestampBeforeSleepUs : UInt64
  rtcTimestampAfterSleepUs : UInt64
  mtimerTimestampBeforeSleepUs : UInt64
  mtimerTimestampAfterSleepUs : UInt64
  virtualTimestampBaseUs : UInt64

def blLpVtimeBeforeSleep (v : Vtime) (rtc : BitVec 40) (mtimer : UInt64) : Vtime :=
  { v with
    rtcTimestampBeforeSleepUs := pdsCntToUs (rtcCnt rtc)
    mtimerTimestampBeforeSleepUs := mtimer
    virtualTimestampBaseUs := v.virtualTimestampBaseUs + (mtimer - v.mtimerTimestampAfterSleepUs) }

def blLpVtimeAfterSleep (v : Vtime) (rtc : BitVec 40) (mtimer : UInt64) : Vtime :=
  { v with
    rtcTimestampAfterSleepUs := pdsCntToUs (rtcCnt rtc)
    mtimerTimestampAfterSleepUs := mtimer
    virtualTimestampBaseUs :=
      v.virtualTimestampBaseUs + (pdsCntToUs (rtcCnt rtc) - v.rtcTimestampBeforeSleepUs) }

def blLpGetVirtualUs (v : Vtime) (mtimer : UInt64) : UInt64 :=
  v.virtualTimestampBaseUs + mtimer - v.mtimerTimestampAfterSleepUs

/-- The chip with its two clocks, and what a watch beside it says: the time awake, the ticks
slept and the number of sleeps. -/
structure Chip where
  vtime : Vtime
  mtimer : UInt64
  rtc : BitVec 40
  awakeUs : Nat
  sleptCnt : Nat
  sleeps : Nat

def Chip.virtualUs (c : Chip) : UInt64 := blLpGetVirtualUs c.vtime c.mtimer

/-- Awake for a time, after which the RTC reads anything; or asleep for so many ticks, after
which the mtimer does. -/
inductive Period where
  | awake (us : Nat) (rtc : BitVec 40)
  | sleep (cnt : Nat) (mtimer : UInt64)

/-- Asleep, between the two calls. -/
def Chip.slept (c : Chip) (cnt : Nat) (mtimer : UInt64) : Chip :=
  let rtc := c.rtc + BitVec.ofNat 40 cnt
  { vtime := blLpVtimeAfterSleep (blLpVtimeBeforeSleep c.vtime c.rtc c.mtimer) rtc mtimer
    mtimer
    rtc
    awakeUs := c.awakeUs
    sleptCnt := c.sleptCnt + cnt
    sleeps := c.sleeps + 1 }

/-- A sleep is shorter than a period of the counter. -/
def Chip.step (c : Chip) : Period → Option Chip
  | .awake us rtc => some { c with
      mtimer := c.mtimer + UInt64.ofNat us
      rtc
      awakeUs := c.awakeUs + us }
  | .sleep cnt mtimer => if cnt < 2 ^ 40 then some (c.slept cnt mtimer) else none

/-- The mtimer has counted since the chip was started. -/
def Chip.start (mtimer : UInt64) (rtc : BitVec 40) : Chip :=
  { vtime := ⟨0, 0, 0, 0, 0⟩
    mtimer
    rtc
    awakeUs := mtimer.toNat
    sleptCnt := 0
    sleeps := 0 }

/-- Within a tick for each sleep of what the watch says, in 512th parts of a microsecond; a
tick is 15625 of them. -/
def Chip.OnTime (c : Chip) : Prop :=
  512 * c.virtualUs.toNat ≤ 512 * c.awakeUs + 15625 * c.sleptCnt + 15625 * c.sleeps ∧
    512 * c.awakeUs + 15625 * c.sleptCnt ≤ 512 * c.virtualUs.toNat + 15625 * c.sleeps

/-- The time does not go back, and is right. -/
def Kept (c : Chip) (_ : Period) (d : Chip) : Prop := c.virtualUs ≤ d.virtualUs ∧ d.OnTime

instance decidableKept (c : Chip) (e : Period) (d : Chip) : Decidable (Kept c e d) :=
  inferInstanceAs (Decidable (_ ∧ _ ∧ _))

/-- What the watch says stays below 64 bits, with a microsecond to spare for each sleep. -/
def Chip.InRange (c : Chip) : Prop := c.awakeUs + 15625 * c.sleptCnt / 512 + c.sleeps < 2 ^ 64

/-- The counter does not wrap while the chip sleeps. -/
def Unwrapped (c : Chip) : Period → Prop
  | .awake _ _ => True
  | .sleep cnt _ => c.rtc.toNat + cnt < 2 ^ 40

instance decidableUnwrapped (c : Chip) (e : Period) : Decidable (Unwrapped c e) :=
  match e with
  | .awake _ _ => inferInstanceAs (Decidable True)
  | .sleep _ _ => inferInstanceAs (Decidable (_ < _))

def Countable (c : Chip) (e : Period) (d : Chip) : Prop := Unwrapped c e ∧ d.InRange

instance decidableCountable (c : Chip) (e : Period) (d : Chip) : Decidable (Countable c e d) :=
  inferInstanceAs (Decidable (_ ∧ _ < _))

variable {c d : Chip} {e : Period} {cnt us : Nat} {mtimer : UInt64} {rtc : BitVec 40}

/-- Without a wrap the counter goes on by the ticks. -/
theorem rtc_add_toNat (h : rtc.toNat + cnt < 2 ^ 40) :
    (rtc + BitVec.ofNat 40 cnt).toNat = rtc.toNat + cnt := by
  rw [BitVec.toNat_add, BitVec.toNat_ofNat, Nat.mod_eq_of_lt (by omega : cnt < 2 ^ 40)]
  exact Nat.mod_eq_of_lt h

/-- The microseconds that a sleep adds to the base. -/
def sleptUs (rtc : BitVec 40) (cnt : Nat) : UInt64 :=
  pdsCntToUs (rtcCnt (rtc + BitVec.ofNat 40 cnt)) - pdsCntToUs (rtcCnt rtc)

theorem sleptUs_bounds (h : rtc.toNat + cnt < 2 ^ 40) :
    512 * (sleptUs rtc cnt).toNat ≤ 15625 * cnt + 512 ∧
      15625 * cnt ≤ 512 * (sleptUs rtc cnt).toNat + 512 := by
  have hbefore := pdsCntToUs_rtcCnt rtc
  have hafter := pdsCntToUs_rtcCnt (rtc + BitVec.ofNat 40 cnt)
  rw [rtc_add_toNat h] at hafter
  have hle : pdsCntToUs (rtcCnt rtc) ≤ pdsCntToUs (rtcCnt (rtc + BitVec.ofNat 40 cnt)) := by
    apply UInt64.le_iff_toNat_le.mpr
    omega
  rw [sleptUs, UInt64.toNat_sub_of_le _ _ hle]
  omega

/-- Over a sleep the virtual time moves by the RTC's time, wherever the mtimer goes on from. -/
theorem virtualUs_slept (c : Chip) (cnt : Nat) (mtimer : UInt64) :
    (c.slept cnt mtimer).virtualUs = c.virtualUs + sleptUs c.rtc cnt := by
  simp only [Chip.virtualUs, Chip.slept, blLpGetVirtualUs, blLpVtimeAfterSleep,
    blLpVtimeBeforeSleep, sleptUs]
  grind

theorem virtualUs_awake (c : Chip) (us : Nat) (rtc : BitVec 40) (awakeUs : Nat) :
    Chip.virtualUs { c with mtimer := c.mtimer + UInt64.ofNat us, rtc, awakeUs } =
      c.virtualUs + UInt64.ofNat us := by
  simp only [Chip.virtualUs, blLpGetVirtualUs]
  grind

/-- The time awake, and a credit for the sleeps that is a microsecond off for each. -/
def Accounted (c : Chip) : Prop :=
  ∃ credit, c.virtualUs.toNat = c.awakeUs + credit ∧
    512 * credit ≤ 15625 * c.sleptCnt + 512 * c.sleeps ∧
    15625 * c.sleptCnt ≤ 512 * credit + 512 * c.sleeps

theorem Accounted.onTime (h : Accounted c) : c.OnTime := by
  obtain ⟨credit, hvirtual, hupper, hlower⟩ := h
  constructor <;> omega

theorem accounted_start (mtimer : UInt64) (rtc : BitVec 40) : Accounted (Chip.start mtimer rtc) := by
  refine ⟨0, ?_, by omega, Nat.le_refl _⟩
  simp [Chip.virtualUs, blLpGetVirtualUs, Chip.start]

theorem Accounted.awake (h : Accounted c) (hstep : c.step (.awake us rtc) = some d)
    (hrange : d.InRange) : c.virtualUs ≤ d.virtualUs ∧ Accounted d := by
  cases hstep
  obtain ⟨credit, hvirtual, hupper, hlower⟩ := h
  have hbelow : c.awakeUs + us + 15625 * c.sleptCnt / 512 + c.sleeps < 2 ^ 64 := hrange
  have hus : (UInt64.ofNat us).toNat = us := by
    rw [UInt64.toNat_ofNat']
    exact Nat.mod_eq_of_lt (by omega)
  have hmoved : (c.virtualUs + UInt64.ofNat us).toNat = c.virtualUs.toNat + us := by
    rw [UInt64.toNat_add, hus]
    exact Nat.mod_eq_of_lt (by omega)
  constructor
  · apply UInt64.le_iff_toNat_le.mpr
    rw [virtualUs_awake]
    omega
  · refine ⟨credit, ?_, hupper, hlower⟩
    rw [virtualUs_awake, hmoved]
    change _ = c.awakeUs + us + credit
    omega

theorem Accounted.sleep (h : Accounted c) (hwrap : c.rtc.toNat + cnt < 2 ^ 40)
    (hrange : (c.slept cnt mtimer).InRange) :
    c.virtualUs ≤ (c.slept cnt mtimer).virtualUs ∧ Accounted (c.slept cnt mtimer) := by
  obtain ⟨credit, hvirtual, hupper, hlower⟩ := h
  obtain ⟨hmost, hleast⟩ := sleptUs_bounds hwrap
  have hbelow : c.awakeUs + 15625 * (c.sleptCnt + cnt) / 512 + (c.sleeps + 1) < 2 ^ 64 := hrange
  have hmoved : (c.slept cnt mtimer).virtualUs.toNat =
      c.virtualUs.toNat + (sleptUs c.rtc cnt).toNat := by
    rw [virtualUs_slept, UInt64.toNat_add]
    exact Nat.mod_eq_of_lt (by omega)
  constructor
  · apply UInt64.le_iff_toNat_le.mpr
    omega
  · refine ⟨credit + (sleptUs c.rtc cnt).toNat, ?_, ?_, ?_⟩
    · change _ = c.awakeUs + _
      omega
    · change _ ≤ 15625 * (c.sleptCnt + cnt) + 512 * (c.sleeps + 1)
      omega
    · change 15625 * (c.sleptCnt + cnt) ≤ _ + 512 * (c.sleeps + 1)
      omega

theorem accounted_step (h : Accounted c) (hstep : c.step e = some d) (hsafe : Countable c e d) :
    Kept c e d ∧ Accounted d := by
  cases e with
  | awake us rtc =>
    obtain ⟨hle, hnext⟩ := h.awake hstep hsafe.2
    exact ⟨⟨hle, hnext.onTime⟩, hnext⟩
  | sleep cnt mtimer =>
    have hslept : c.slept cnt mtimer = d := by
      rw [Chip.step] at hstep
      split at hstep
      · exact Option.some.inj hstep
      · cases hstep
    subst hslept
    obtain ⟨hle, hnext⟩ := h.sleep hsafe.1 hsafe.2
    exact ⟨⟨hle, hnext.onTime⟩, hnext⟩

/-- For every sequence of awake periods and sleeps from the start of the chip: as long as the
counter does not wrap during a sleep, the virtual time never goes back and is the time awake
with the time slept. -/
theorem virtual_us_kept (mtimer : UInt64) (rtc : BitVec 40) (periods : List Period)
    (h : Along Chip.step Countable (Chip.start mtimer rtc) periods) :
    Along Chip.step Kept (Chip.start mtimer rtc) periods :=
  along_of_invariant (fun _ _ _ => accounted_step) (accounted_start mtimer rtc) h

/-- A second awake, one asleep, after which the mtimer starts again, and one more awake. -/
theorem virtual_us_kept_second :
    Along Chip.step Kept (Chip.start 0 5)
      [.awake 1000000 32773, .sleep 32768 0, .awake 1000000 98309] := by
  apply virtual_us_kept
  intro c hc
  cases hc
  refine ⟨by decide +kernel, fun d hd => ?_⟩
  cases hd
  refine ⟨by decide +kernel, fun e he => ?_⟩
  cases he
  exact ⟨by decide +kernel, along_nil⟩

/-- A second awake and a sleep of one tick, at the end of which the counter is at 0: the time
is no longer right. -/
theorem wrapped_counter_loses_period :
    ¬ ∀ (mtimer : UInt64) (rtc : BitVec 40) (periods : List Period),
      Along Chip.step Kept (Chip.start mtimer rtc) periods := by
  intro h
  have hall := h 0 0 [.awake 1000000 (BitVec.ofNat 40 (2 ^ 40 - 1)), .sleep 1 0]
  have hlast := ((hall _ rfl).2 _ rfl).1
  revert hlast
  decide +kernel

end BouffaloSdk.Lp
