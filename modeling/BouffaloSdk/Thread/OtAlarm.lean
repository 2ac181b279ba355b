import Mathlib.Algebra.Order.Ring.Nat

/-!
# The alarms of OpenThread

`components/wireless/thread/openthread_port/ot_alarm_bl702.c`, `ot_alarm_bl702l.c` and
`ot_alarm_bl616.c`. An alarm in milliseconds is a timer of FreeRTOS on each chip. An alarm in
microseconds is a comparator of `timer0` on the BL702, and a channel of the symbol timer of the
radio on the other two, whose code is the same.
-/

namespace BouffaloSdk.OtAlarm

/-- The timer of an alarm, armed for a value of its counter, and the expiry events posted. -/
structure Alarm where
  timer : Option UInt32
  posted : Nat
  deriving DecidableEq

/-- `otrNotifyEvent` with the event of the alarm. -/
def Alarm.otrNotifyEvent (a : Alarm) : Alarm := { a with posted := a.posted + 1 }

def Alarm.stop (a : Alarm) : Alarm := { a with timer := none }

/-- The timer's counter takes a value: at the one that is armed the callback stops the timer
and posts. -/
def Alarm.count (a : Alarm) (counter : UInt32) : Alarm :=
  if a.timer = some counter then a.stop.otrNotifyEvent else a

/-- From a value of the counter on, for so many counts. -/
def Alarm.after (a : Alarm) (counter : UInt32) : Nat → Alarm
  | 0 => a.count counter
  | n + 1 => (a.after counter n).count (counter + UInt32.ofNat (n + 1))

/-- The prebuilt symbol timer: what a channel is armed for after each call. -/
structure ZbTimer where
  start : Option UInt32 → UInt32 → Option UInt32
  stop : Option UInt32 → Option UInt32

/-- A channel is armed for the target it was last started with, until it is stopped. -/
structure ZbTimer.Lawful (zb : ZbTimer) : Prop where
  start_eq : ∀ armed target, zb.start armed target = some target
  stop_eq : ∀ armed, zb.stop armed = none

/-- What the calls read: the mtimer, the tick of FreeRTOS and the offset of `timer0`; the symbol
timer, how far its symbol has gone, and the symbols that pass while it is armed. -/
structure Readings where
  mtimerUs : UInt64
  tick : UInt32
  otAlarmOffset : UInt32
  symbols : UInt32
  phase : Fin 16
  passed : Nat

def otAlarmTimerMargin : UInt32 := 30
def lmac154UsPerSymbolBits : UInt32 := 4
def lmac154UsPerSymbol : UInt32 := 16
def configTickRateHz : UInt32 := 1000

/-- `OT_TIMER_MS_TO_TICKS`. -/
def otTimerMsToTicks (xTimeInMs : UInt32) : UInt32 :=
  xTimeInMs / 1000 * configTickRateHz + xTimeInMs % 1000 * configTickRateHz / 1000

/-- `xTimerChangePeriod` starts the timer, whether it runs or not. -/
def xTimerChangePeriod (a : Alarm) (tick period : UInt32) : Alarm :=
  { a with timer := some (tick + period) }

def otPlatAlarmMilliGetNow (r : Readings) : UInt32 := (r.mtimerUs / 1000).toUInt32

/-- The same code on the three chips. -/
def otPlatAlarmMilliStartAt (a : Alarm) (r : Readings) (aT0 aDt : UInt32) : Alarm :=
  let elapseTime := otPlatAlarmMilliGetNow r - aT0
  if elapseTime < aDt then xTimerChangePeriod a r.tick (otTimerMsToTicks (aDt - elapseTime))
  else a.otrNotifyEvent

/-- On the BL702. The event is posted after both branches. -/
def Bl702.otPlatAlarmMicroStartAt (a : Alarm) (r : Readings) (aT0 aDt : UInt32) : Alarm :=
  let now := r.mtimerUs.toUInt32
  let b :=
    if otAlarmTimerMargin < aDt ∧ now - aT0 < aDt - otAlarmTimerMargin then
      { a with timer := some (aT0 + aDt - r.otAlarmOffset) }
    else a
  b.otrNotifyEvent

/-- On the symbol timer the time is that of the symbol, and so is that of `aT0`. -/
def elapsedSymbolUs (now aT0 : UInt32) : UInt32 :=
  (now <<< lmac154UsPerSymbolBits) - (aT0 &&& 0xfffffff0)

/-- The target on the symbol timer. -/
def symbolTarget (now aT0 aDt : UInt32) : UInt32 :=
  ((aT0 + aDt - (now <<< lmac154UsPerSymbolBits) + lmac154UsPerSymbol / 2) >>>
    lmac154UsPerSymbolBits) + now

/-- On the BL702L and the BL616. The time is looked at again once the timer is armed. -/
def Bl616.otPlatAlarmMicroStartAt (zb : ZbTimer) (a : Alarm) (r : Readings) (aT0 aDt : UInt32) :
    Alarm :=
  let armed :=
    if elapsedSymbolUs r.symbols aT0 < aDt then
      { a with timer := zb.start a.timer (symbolTarget r.symbols aT0 aDt) }
    else a
  if elapsedSymbolUs r.symbols aT0 < aDt ∧
      elapsedSymbolUs (r.symbols + UInt32.ofNat r.passed) aT0 < aDt then armed
  else { armed with timer := zb.stop armed.timer }.otrNotifyEvent

inductive Chip where
  | bl702
  | bl702l
  | bl616

inductive Scale where
  | milli
  | micro

/-- Three alarms, of which each chip has two. -/
inductive Port where
  | milli
  | comparator
  | symbols

def port : Chip → Scale → Port
  | _, .milli => .milli
  | .bl702, .micro => .comparator
  | .bl702l, .micro => .symbols
  | .bl616, .micro => .symbols

def startAt (zb : ZbTimer) (a : Alarm) (r : Readings) (aT0 aDt : UInt32) : Port → Alarm
  | .milli => otPlatAlarmMilliStartAt a r aT0 aDt
  | .comparator => Bl702.otPlatAlarmMicroStartAt a r aT0 aDt
  | .symbols => Bl616.otPlatAlarmMicroStartAt zb a r aT0 aDt

/-! ## What an alarm is for -/

/-- The time that the symbol timer stands for, modulo 2^32. -/
def symbolUs (r : Readings) : UInt32 := r.symbols * 16 + UInt32.ofNat r.phase.val

/-- From `aT0` to the end of the call, in the unit of the alarm. -/
def since (r : Readings) (aT0 : UInt32) : Port → Nat
  | .milli => (otPlatAlarmMilliGetNow r - aT0).toNat
  | .comparator => (r.mtimerUs.toUInt32 - aT0).toNat
  | .symbols => (symbolUs r - aT0).toNat + 16 * r.passed

/-- `aT0` is not in the future. Times have 32 bits and so all of them are in the past; on the
symbol timer not those that the current symbol has still to reach. -/
def NotInFuture (r : Readings) (aT0 : UInt32) : Port → Prop
  | .symbols => since r aT0 .symbols + 16 ≤ 2 ^ 32
  | _ => True

/-- The counter of the timer at the end of the call. -/
def counter (r : Readings) : Port → UInt32
  | .milli => r.tick
  | .comparator => r.mtimerUs.toUInt32 - r.otAlarmOffset
  | .symbols => r.symbols + UInt32.ofNat r.passed

/-- What one count of the timer is worth. -/
def unit : Port → Nat
  | .symbols => 16
  | _ => 1

/-- How far the count at the end of the call has gone. -/
def phase (r : Readings) : Port → Nat
  | .symbols => r.phase.val
  | _ => 0

/-- How exact a deadline is: to a symbol where the timer counts symbols. -/
def tolerance : Port → Nat
  | .symbols => 16
  | _ => 0

/-- How early a deadline counts as reached. -/
def margin : Port → Nat
  | .comparator => 30
  | p => tolerance p

/-- Posted where the deadline has been reached, and not again. -/
structure PostedAtOnce (a b : Alarm) (r : Readings) (aT0 aDt : UInt32) (p : Port) : Prop where
  posted : b.posted = a.posted + 1
  reached : aDt.toNat ≤ since r aT0 p + margin p
  once : ∀ n, (b.after (counter r p) n).posted = b.posted

/-- Armed where it has not been reached, and posted once, when the counter is at the deadline. -/
structure ArmedFor (a b : Alarm) (r : Readings) (aT0 aDt : UInt32) (p : Port) (left : Nat) :
    Prop where
  posted : b.posted = a.posted
  ahead : since r aT0 p < aDt.toNat + tolerance p
  notEarly : aDt.toNat + phase r p ≤ since r aT0 p + unit p * left + tolerance p
  notLate : since r aT0 p + unit p * left ≤ aDt.toNat + phase r p + tolerance p
  once : ∀ n, (b.after (counter r p) n).posted = b.posted + if left ≤ n then 1 else 0

def FiresOnceOnTime (zb : ZbTimer) (a : Alarm) (r : Readings) (aT0 aDt : UInt32) (p : Port) : Prop :=
  PostedAtOnce a (startAt zb a r aT0 aDt p) r aT0 aDt p ∨
    ∃ left, ArmedFor a (startAt zb a r aT0 aDt p) r aT0 aDt p left

/-- Milliseconds are left, or the timer does not run; on the BL702 the deadline is within the
margin and the comparator is not armed; on the symbol timer the deadline has been reached, or
what is left of it fits in 32 bits with half a symbol. -/
def StartsClean (a : Alarm) (r : Readings) (aT0 aDt : UInt32) : Port → Prop
  | .milli => since r aT0 .milli < aDt.toNat ∨ a.timer = none
  | .comparator => aDt.toNat ≤ since r aT0 .comparator + 30 ∧ a.timer = none
  | .symbols => aDt.toNat + r.phase.val ≤ since r aT0 .symbols + aT0.toNat % 16 ∨
      aDt.toNat + aT0.toNat % 16 + 8 < 2 ^ 32 + (elapsedSymbolUs r.symbols aT0).toNat

variable {zb : ZbTimer} {a b : Alarm} {r : Readings} {aT0 aDt target c : UInt32} {n left : Nat}
variable {p : Port}

/-! ## Counting to a deadline -/

theorem after_stopped (h : a.timer = none) (c : UInt32) (n : Nat) : a.after c n = a := by
  induction n with
  | zero => simp [Alarm.after, Alarm.count, h]
  | succ n ih => simp [Alarm.after, Alarm.count, h, ih]

/-- The counter is at the target after the difference, and not before. -/
theorem counter_at_iff (c target : UInt32) (hn : n < 2 ^ 32) :
    target = c + UInt32.ofNat n ↔ (target - c).toNat = n := by
  have hnat : (UInt32.ofNat n).toNat = n := by
    rw [UInt32.toNat_ofNat']
    exact Nat.mod_eq_of_lt hn
  constructor
  · rintro rfl
    rw [UInt32.add_comm, UInt32.add_sub_cancel, hnat]
  · intro h
    rw [← h, UInt32.ofNat_toNat, UInt32.add_comm, UInt32.sub_add_cancel]

theorem after_armed (h : a.timer = some target) (c : UInt32) (n : Nat) :
    a.after c n = if (target - c).toNat ≤ n then a.stop.otrNotifyEvent else a := by
  have hleft := (target - c).toNat_lt
  induction n with
  | zero =>
    have hat := counter_at_iff c target (by omega : 0 < 2 ^ 32)
    rw [show UInt32.ofNat 0 = 0 from rfl, UInt32.add_zero] at hat
    simp only [Alarm.after, Alarm.count, h, Option.some.injEq, Nat.le_zero, hat]
  | succ n ih =>
    rw [Alarm.after, ih]
    by_cases hfired : (target - c).toNat ≤ n
    · rw [if_pos hfired, if_pos (by omega)]
      rfl
    · have hat := counter_at_iff c target (by omega : n + 1 < 2 ^ 32)
      rw [if_neg hfired, Alarm.count, h]
      simp only [Option.some.injEq, hat]
      by_cases hnow : (target - c).toNat = n + 1
      · rw [if_pos hnow, if_pos (by omega)]
      · rw [if_neg hnow, if_neg (by omega)]

/-- A timer that runs posts sooner or later. -/
theorem silent_iff (c : UInt32) : (∀ n, (b.after c n).posted = b.posted) ↔ b.timer = none := by
  constructor
  · intro h
    cases hb : b.timer with
    | none => rfl
    | some target =>
      have hlast := h (target - c).toNat
      rw [after_armed hb, if_pos (Nat.le_refl _)] at hlast
      exact absurd hlast (Nat.succ_ne_self b.posted)
  · intro h n
    rw [after_stopped h]

theorem posts_once (h : b.timer = some target) (c : UInt32) (n : Nat) :
    (b.after c n).posted = b.posted + if (target - c).toNat ≤ n then 1 else 0 := by
  rw [after_armed h]
  split <;> rfl

/-- The deadline that an armed timer shows is its target. -/
theorem left_eq (h : b.timer = some target)
    (honce : ∀ n, (b.after c n).posted = b.posted + if left ≤ n then 1 else 0) :
    left = (target - c).toNat := by
  have hleft := honce left
  have hdiff := honce (target - c).toNat
  rw [posts_once h, if_pos (Nat.le_refl _)] at hleft hdiff
  have hle : (target - c).toNat ≤ left := by
    by_contra hgt
    rw [if_neg hgt] at hleft
    omega
  have hge : left ≤ (target - c).toNat := by
    by_contra hgt
    rw [if_neg hgt] at hdiff
    omega
  exact Nat.le_antisymm hge hle

theorem ArmedFor.not_posted (h : ArmedFor a b r aT0 aDt p left) : b.posted ≠ a.posted + 1 := by
  rw [h.posted]
  exact (Nat.succ_ne_self _).symm

/-! ## Milliseconds -/

/-- At a thousand ticks a second a millisecond is a tick. -/
theorem otTimerMsToTicks_eq (ms : UInt32) : otTimerMsToTicks ms = ms := by
  apply UInt32.toNat_inj.mp
  have hlt := ms.toNat_lt
  rw [otTimerMsToTicks, configTickRateHz, UInt32.toNat_add, UInt32.toNat_mul, UInt32.toNat_div,
    UInt32.toNat_div, UInt32.toNat_mul, UInt32.toNat_mod]
  change (ms.toNat / 1000 * 1000 % 2 ^ 32 + ms.toNat % 1000 * 1000 % 2 ^ 32 / 1000) % 2 ^ 32 = _
  rw [Nat.mod_eq_of_lt (by omega : ms.toNat / 1000 * 1000 < 2 ^ 32),
    Nat.mod_eq_of_lt (by omega : ms.toNat % 1000 * 1000 < 2 ^ 32), Nat.mul_div_cancel _ (by omega)]
  omega

theorem milli_iff : FiresOnceOnTime zb a r aT0 aDt .milli ↔ StartsClean a r aT0 aDt .milli := by
  have hstart : startAt zb a r aT0 aDt .milli = otPlatAlarmMilliStartAt a r aT0 aDt := rfl
  rw [FiresOnceOnTime, hstart, otPlatAlarmMilliStartAt]
  by_cases hleft : otPlatAlarmMilliGetNow r - aT0 < aDt
  · rw [if_pos hleft, otTimerMsToTicks_eq]
    have hlt : since r aT0 .milli < aDt.toNat := UInt32.lt_iff_toNat_lt.mp hleft
    have hperiod : (r.tick + (aDt - (otPlatAlarmMilliGetNow r - aT0)) - r.tick).toNat =
        aDt.toNat - since r aT0 .milli := by
      rw [UInt32.add_comm, UInt32.add_sub_cancel,
        UInt32.toNat_sub_of_le _ _ (UInt32.le_of_lt hleft)]
      rfl
    refine iff_of_true (.inr ⟨aDt.toNat - since r aT0 .milli, rfl, hlt, ?_, ?_, fun n => ?_⟩) (.inl hlt)
    · simp only [phase, unit, tolerance]
      omega
    · simp only [phase, unit, tolerance]
      omega
    · rw [posts_once rfl, counter, hperiod]
  · rw [if_neg hleft]
    have hge : ¬ since r aT0 .milli < aDt.toNat := fun h => hleft (UInt32.lt_iff_toNat_lt.mpr h)
    constructor
    · rintro (hpost | ⟨left, harm⟩)
      · exact .inr ((silent_iff (b := a.otrNotifyEvent) _).mp hpost.once)
      · exact absurd rfl harm.not_posted
    · rintro (hlt | hnone)
      · exact absurd hlt hge
      · exact .inl ⟨rfl, by omega, (silent_iff _).mpr hnone⟩

/-! ## The comparator of the BL702 -/

theorem comparator_iff :
    FiresOnceOnTime zb a r aT0 aDt .comparator ↔ StartsClean a r aT0 aDt .comparator := by
  have hstart : startAt zb a r aT0 aDt .comparator = Bl702.otPlatAlarmMicroStartAt a r aT0 aDt := rfl
  rw [FiresOnceOnTime, hstart, Bl702.otPlatAlarmMicroStartAt]
  have h30 : otAlarmTimerMargin.toNat = 30 := rfl
  have hsub (hlong : 30 < aDt.toNat) : (aDt - otAlarmTimerMargin).toNat = aDt.toNat - 30 := by
    rw [UInt32.toNat_sub_of_le]
    · rfl
    · exact UInt32.le_iff_toNat_le.mpr (Nat.le_of_lt hlong)
  have hmargin : otAlarmTimerMargin < aDt ∧
      r.mtimerUs.toUInt32 - aT0 < aDt - otAlarmTimerMargin ↔
        ¬ aDt.toNat ≤ since r aT0 .comparator + 30 := by
    rw [UInt32.lt_iff_toNat_lt, UInt32.lt_iff_toNat_lt, h30]
    change _ ∧ since r aT0 .comparator < _ ↔ _
    constructor
    · rintro ⟨hlong, hlt⟩
      rw [hsub hlong] at hlt
      omega
    · intro hfar
      rw [hsub (by omega)]
      omega
  by_cases hfar : aDt.toNat ≤ since r aT0 .comparator + 30
  · rw [if_neg (fun h => hmargin.mp h hfar)]
    constructor
    · rintro (hpost | ⟨left, harm⟩)
      · exact ⟨hfar, (silent_iff (b := a.otrNotifyEvent) _).mp hpost.once⟩
      · exact absurd rfl harm.not_posted
    · rintro ⟨hreached, hnone⟩
      exact .inl ⟨rfl, hreached, (silent_iff _).mpr hnone⟩
  · rw [if_pos (hmargin.mpr hfar)]
    refine iff_of_false ?_ (fun h => hfar h.1)
    rintro (hpost | ⟨left, harm⟩)
    · have hnone := (silent_iff _).mp hpost.once
      cases hnone
    · exact absurd rfl harm.not_posted

/-! ## The symbol timer -/

/-- The mask takes a time back to its symbol. -/
theorem toNat_and_symbol (us : UInt32) : (us &&& 0xfffffff0).toNat = us.toNat - us.toNat % 16 := by
  have hlt := us.toNat_lt
  have hmask : (0xfffffff0 : UInt32).toNat = (2 ^ 28 - 1) <<< 4 := rfl
  have hround : us.toNat - us.toNat % 16 = us.toNat >>> 4 <<< 4 := by
    rw [Nat.shiftRight_eq_div_pow, Nat.shiftLeft_eq]
    omega
  rw [UInt32.toNat_and, hmask, hround]
  apply Nat.eq_of_testBit_eq
  intro i
  rw [Nat.testBit_and, Nat.testBit_shiftLeft, Nat.testBit_shiftLeft, Nat.testBit_shiftRight,
    Nat.testBit_two_pow_sub_one]
  by_cases hi : 4 ≤ i
  · rw [show 4 + (i - 4) = i by omega]
    by_cases hsmall : i < 32
    · simp [hi, show i - 4 < 28 by omega]
    · rw [Nat.testBit_lt_two_pow (Nat.lt_of_lt_of_le hlt (Nat.pow_le_pow_right (by omega) (by omega)))]
      simp
  · simp [hi]

theorem toNat_shiftLeft_symbol (now : UInt32) :
    (now <<< lmac154UsPerSymbolBits).toNat = now.toNat * 16 % 2 ^ 32 := by
  rw [UInt32.toNat_shiftLeft]
  change now.toNat <<< 4 % 2 ^ 32 = _
  rw [Nat.shiftLeft_eq]

/-- Counted in whole symbols the time since `aT0` is off by where in their symbols both are. -/
theorem elapsedSymbolUs_eq {k : Nat} (h : (symbolUs r - aT0).toNat + 16 * k + 16 ≤ 2 ^ 32) :
    (elapsedSymbolUs (r.symbols + UInt32.ofNat k) aT0).toNat + r.phase.val =
      (symbolUs r - aT0).toNat + 16 * k + aT0.toNat % 16 := by
  have hphase := r.phase.isLt
  have hT0 := aT0.toNat_lt
  have hsymbols := r.symbols.toNat_lt
  have hus : (symbolUs r).toNat = (r.symbols.toNat * 16 + r.phase.val) % 2 ^ 32 := by
    rw [symbolUs, UInt32.toNat_add, UInt32.toNat_mul, UInt32.toNat_ofNat']
    change (r.symbols.toNat * 16 % 2 ^ 32 + r.phase.val % 2 ^ 32) % 2 ^ 32 = _
    omega
  have hnow : ((r.symbols + UInt32.ofNat k) <<< lmac154UsPerSymbolBits).toNat =
      (r.symbols.toNat * 16 + k * 16) % 2 ^ 32 := by
    rw [toNat_shiftLeft_symbol, UInt32.toNat_add, UInt32.toNat_ofNat']
    omega
  rw [UInt32.toNat_sub, hus] at h
  rw [elapsedSymbolUs, UInt32.toNat_sub, UInt32.toNat_sub, hnow, toNat_and_symbol, hus]
  omega

theorem elapsedSymbolUs_first (hpast : NotInFuture r aT0 .symbols) :
    (elapsedSymbolUs r.symbols aT0).toNat + r.phase.val =
      (symbolUs r - aT0).toNat + aT0.toNat % 16 := by
  have hnow : (symbolUs r - aT0).toNat + 16 * r.passed + 16 ≤ 2 ^ 32 := hpast
  have hzero : (symbolUs r - aT0).toNat + 16 * 0 + 16 ≤ 2 ^ 32 := by omega
  have heq := @elapsedSymbolUs_eq r aT0 0 hzero
  rwa [show UInt32.ofNat 0 = 0 from rfl, UInt32.add_zero] at heq

/-- What is left to a deadline from a time in symbols, against the time that has passed. -/
theorem left_mod {T0 Dt low now elapsed : Nat} (hT0 : T0 < 2 ^ 32) (hnow : now < 2 ^ 32)
    (hlow : low ≤ T0) (helapsed : elapsed = (2 ^ 32 - (T0 - low) + now) % 2 ^ 32)
    (h : elapsed < Dt) :
    ((2 ^ 32 - now + (T0 + Dt) % 2 ^ 32) % 2 ^ 32 + 8) % 2 ^ 32 =
      (Dt + low + 8 - elapsed) % 2 ^ 32 := by
  rw [Nat.mod_add_mod, Nat.add_assoc, Nat.add_comm ((T0 + Dt) % 2 ^ 32), ← Nat.add_assoc,
    Nat.add_mod_mod]
  obtain hafter | hwrapped : elapsed + T0 = now + low ∨ elapsed + T0 = now + low + 2 ^ 32 := by
    omega
  · have hleft : 2 ^ 32 - now + 8 + (T0 + Dt) = Dt + low + 8 - elapsed + 2 ^ 32 := by
      clear helapsed
      omega
    rw [hleft, Nat.add_mod_right]
  · have hleft : 2 ^ 32 - now + 8 + (T0 + Dt) = Dt + low + 8 - elapsed + 2 ^ 32 * 2 := by
      clear helapsed
      omega
    rw [hleft, Nat.add_mul_mod_self_left]

/-- The target is as many symbols away as the time left has, to the nearest one; with half a
symbol it is taken in 32 bits. -/
theorem symbolTarget_sub (now : UInt32) (h : (elapsedSymbolUs now aT0).toNat < aDt.toNat) :
    (symbolTarget now aT0 aDt - now).toNat =
      (aDt.toNat + aT0.toNat % 16 + 8 - (elapsedSymbolUs now aT0).toNat) % 2 ^ 32 / 16 := by
  have helapsed : (elapsedSymbolUs now aT0).toNat =
      (2 ^ 32 - (aT0.toNat - aT0.toNat % 16) + now.toNat * 16 % 2 ^ 32) % 2 ^ 32 := by
    rw [elapsedSymbolUs, UInt32.toNat_sub, toNat_shiftLeft_symbol, toNat_and_symbol]
  rw [← left_mod aT0.toNat_lt (Nat.mod_lt _ (Nat.two_pow_pos 32)) (Nat.mod_le _ _) helapsed h,
    symbolTarget, UInt32.add_sub_cancel, UInt32.toNat_shiftRight, UInt32.toNat_add,
    UInt32.toNat_sub, UInt32.toNat_add, toNat_shiftLeft_symbol]
  change _ >>> 4 = _
  rw [Nat.shiftRight_eq_div_pow]
  rfl

/-- The counts that are left once the timer is armed. -/
theorem symbolTarget_left (hpassed : r.passed < 2 ^ 28)
    (h : (elapsedSymbolUs r.symbols aT0).toNat < aDt.toNat) :
    (symbolTarget r.symbols aT0 aDt - counter r .symbols).toNat =
      ((aDt.toNat + aT0.toNat % 16 + 8 - (elapsedSymbolUs r.symbols aT0).toNat) % 2 ^ 32 / 16 +
        (2 ^ 32 - r.passed)) % 2 ^ 32 := by
  have hsplit : symbolTarget r.symbols aT0 aDt - counter r .symbols =
      symbolTarget r.symbols aT0 aDt - r.symbols - UInt32.ofNat r.passed := by
    rw [counter]
    grind
  rw [hsplit, UInt32.toNat_sub, symbolTarget_sub _ h, UInt32.toNat_ofNat']
  omega

/-- The deadline has been reached when the time is looked at again. -/
theorem symbols_reached_iff (hpast : NotInFuture r aT0 .symbols) :
    (elapsedSymbolUs r.symbols aT0 < aDt ∧
      elapsedSymbolUs (r.symbols + UInt32.ofNat r.passed) aT0 < aDt) ↔
        ¬ aDt.toNat + r.phase.val ≤ since r aT0 .symbols + aT0.toNat % 16 := by
  have hphase := r.phase.isLt
  have hfirst := elapsedSymbolUs_first hpast
  have hlast := elapsedSymbolUs_eq (k := r.passed) hpast
  rw [UInt32.lt_iff_toNat_lt, UInt32.lt_iff_toNat_lt]
  change _ ↔ ¬ _ ≤ (symbolUs r - aT0).toNat + 16 * r.passed + _
  omega

theorem symbols_iff (hzb : zb.Lawful) (hpast : NotInFuture r aT0 .symbols) :
    FiresOnceOnTime zb a r aT0 aDt .symbols ↔ StartsClean a r aT0 aDt .symbols := by
  have hstart : startAt zb a r aT0 aDt .symbols = Bl616.otPlatAlarmMicroStartAt zb a r aT0 aDt := rfl
  have hreached := @symbols_reached_iff r aT0 aDt hpast
  have hphase := r.phase.isLt
  rw [FiresOnceOnTime, hstart, Bl616.otPlatAlarmMicroStartAt]
  by_cases hahead : aDt.toNat + r.phase.val ≤ since r aT0 .symbols + aT0.toNat % 16
  · rw [if_neg (fun h => hreached.mp h hahead), hzb.stop_eq]
    refine iff_of_true (.inl ⟨?_, ?_, ?_⟩) (.inl hahead)
    · split <;> rfl
    · simp only [margin, tolerance]
      omega
    · exact (silent_iff _).mpr rfl
  · have harming := hreached.mpr hahead
    rw [if_pos harming, if_pos harming.1, hzb.start_eq]
    have helapsed := elapsedSymbolUs_first hpast
    have hsince : since r aT0 .symbols = (symbolUs r - aT0).toNat + 16 * r.passed := rfl
    have hshort : r.passed < 2 ^ 28 := by
      change since r aT0 .symbols + 16 ≤ 2 ^ 32 at hpast
      omega
    have hfirst := UInt32.lt_iff_toNat_lt.mp harming.1
    have hleft := symbolTarget_left hshort hfirst
    have hDt := aDt.toNat_lt
    constructor
    · rintro (hpost | ⟨left, harm⟩)
      · exact absurd hpost.posted (Nat.succ_ne_self _).symm
      · have heq := left_eq rfl harm.once
        have hlate := harm.notLate
        have hearly := harm.notEarly
        simp only [phase, unit, tolerance] at hlate hearly
        refine .inr ?_
        omega
    · rintro (hover | hfits)
      · exact absurd hover hahead
      · refine .inr ⟨_, rfl, ?_, ?_, ?_, posts_once rfl _⟩
        · simp only [tolerance]
          omega
        · simp only [phase, unit, tolerance, hleft]
          omega
        · simp only [phase, unit, tolerance, hleft]
          omega

/-! ## Every start of an alarm -/

/-- On each chip, for both alarms, with every earlier deadline, and for all times: the alarm
fires once and on time if and only if its start is clean. -/
theorem alarm_start_at_iff (hzb : zb.Lawful) (chip : Chip) (scale : Scale) (a : Alarm) (r : Readings)
    (aT0 aDt : UInt32) (hpast : NotInFuture r aT0 (port chip scale)) :
    FiresOnceOnTime zb a r aT0 aDt (port chip scale) ↔
      StartsClean a r aT0 aDt (port chip scale) := by
  cases hport : port chip scale with
  | milli => exact milli_iff
  | comparator => exact comparator_iff
  | symbols => exact symbols_iff hzb (hport ▸ hpast)

/-- The symbol timer as the code relies on it. -/
def zbTimer : ZbTimer := ⟨fun _ target => some target, fun _ => none⟩

theorem zbTimer_lawful : zbTimer.Lawful := ⟨fun _ _ => rfl, fun _ => rfl⟩

theorem half_phase_lt : 8 < 16 := by decide

/-- A symbol and a half before the microseconds wrap; a symbol passes while the timer is armed. -/
def readNearWrap : Readings := ⟨100, 0, 0, 0xffffffe, ⟨8, half_phase_lt⟩, 1⟩

/-- A millisecond on the BL616 over the wrap, with an earlier deadline in the timer. -/
theorem alarm_start_at_iff_wrap :
    NotInFuture readNearWrap 0xffffffd5 (port .bl616 .micro) ∧
      (FiresOnceOnTime zbTimer ⟨some 5, 0⟩ readNearWrap 0xffffffd5 1000 (port .bl616 .micro) ↔
        StartsClean ⟨some 5, 0⟩ readNearWrap 0xffffffd5 1000 (port .bl616 .micro)) := by
  have hpast : NotInFuture readNearWrap 0xffffffd5 (port .bl616 .micro) := by
    change since readNearWrap 0xffffffd5 .symbols + 16 ≤ 2 ^ 32
    decide +kernel
  exact ⟨hpast, alarm_start_at_iff zbTimer_lawful .bl616 .micro ⟨some 5, 0⟩ readNearWrap 0xffffffd5
    1000 hpast⟩

/-- On the BL702 an alarm in a millisecond is posted at once and armed as well. -/
theorem comparator_posts_and_arms :
    ¬ ∀ (zb : ZbTimer), zb.Lawful → ∀ (chip : Chip) (scale : Scale) (a : Alarm) (r : Readings)
      (aT0 aDt : UInt32), NotInFuture r aT0 (port chip scale) →
        FiresOnceOnTime zb a r aT0 aDt (port chip scale) := by
  intro h
  rcases h zbTimer zbTimer_lawful .bl702 .micro ⟨none, 0⟩ ⟨100, 0, 0, 0, 0, 0⟩ 100 1000 trivial with
    hpost | ⟨left, harm⟩
  · exact absurd hpost.reached (by decide +kernel)
  · exact absurd harm.posted (by decide +kernel)

end BouffaloSdk.OtAlarm
