import BouffaloSdk.Kit.Runs
import BouffaloSdk.Log.QueueRuns

/-!
# The text of a record

What `vsnprintf` leaves of a text, from its call in `bflog` to the message area
that `bflog_flush` loads it to. The area has no byte for the terminator behind
a record that fills it.
-/

namespace BouffaloSdk.Bflog
open Kit Kit.Circular Kit.Word Kit.Runs

/-- A call of `bflog` with what its format comes to, or comes to before it
fails; `area` is what is left on the stack. -/
structure LogEntry where
  call : LogCall
  text : List UInt8
  fails : Bool
  area : Msg

/-- `vsnprintf` to 256 bytes: the text or what fits of it, and a zero. -/
def LogEntry.formatted (e : LogEntry) : LogCall :=
  { e.call with
    written := e.text.take (bflogLineBufferSize - 1) ++ [0]
    ret := if e.fails then -1 else e.text.length }

/-- The record counts at most 252 characters. -/
def LogEntry.Short (e : LogEntry) : Prop := e.fails = false ∧ e.text.length ≤ 252

/-- The characters of a text that its record keeps, in a pool of `size` bytes. -/
def textLimit (size : Nat) : Nat := min (bflogLineBufferSize - 1) (size - 36)

/-- The bytes of a message area where its text is. -/
def Msg.string (msg : Msg) (n : Nat) : List UInt8 := msg.get 36 n

/-- A recorder's queue with the calls whose records it holds, oldest first. -/
structure LoggedQueue where
  q : Queue
  pool : List UInt8
  pending : List LogEntry
  halted : Bool

inductive LogOp
  | log (e : LogEntry)
  | flush (area : Msg)

def LogEntry.stored (size : Nat) (e : LogEntry) : List UInt8 :=
  Bflog.stored size e.formatted e.area

namespace LoggedQueue

def messages (w : LoggedQueue) : List (List UInt8) := w.pending.map (LogEntry.stored w.q.size)

/-- The messages that go when the record of `e` comes. -/
def dropped (w : LoggedQueue) (e : LogEntry) : List (List UInt8) :=
  Backlog.dropped w.q.size (e.stored w.q.size).length w.messages

def logged (w : LoggedQueue) (e : LogEntry) : LoggedQueue :=
  match queuePut w.q w.pool (bflogMsg e.formatted e.area) with
  | none => { w with halted := true }
  | some (q, pool) =>
    { w with q := q, pool := pool, pending := w.pending.drop (w.dropped e).length ++ [e] }

def flushed (w : LoggedQueue) (area : Msg) : LoggedQueue :=
  match queueGet w.q w.pool area with
  | none => { w with halted := true }
  | some (q, _) => { w with q := q, pending := w.pending.tail }

end LoggedQueue

/-- A recorder that read or wrote outside its memory does nothing more. -/
def logStep (w : LoggedQueue) (op : LogOp) : Option LoggedQueue :=
  if w.halted then none
  else
    match op with
    | .log e => some (w.logged e)
    | .flush area => some (w.flushed area)

/-- All that the call writes to the message area lies in it, and the area gets
the text. What is dropped for it is read from the pool. -/
def LogsInside (w : LoggedQueue) (e : LogEntry) : Prop :=
  36 + e.formatted.written.length ≤ 296 ∧
    (bflogMsg e.formatted e.area).string (min e.text.length (bflogLineBufferSize - 1)) =
      e.text.take (bflogLineBufferSize - 1) ∧
    queuePut w.q w.pool (bflogMsg e.formatted e.area) ≠ none

/-- The oldest record is loaded into the area, with the terminator behind it,
and its text is that of the call. -/
def LoadsInside (w : LoggedQueue) (area : Msg) : Prop :=
  ∃ q' area', queueGet w.q w.pool area = some (q', area') ∧
    ∀ e ∈ w.pending.head?, area'.string (min e.text.length (textLimit w.q.size)) =
      e.text.take (textLimit w.q.size)

def StaysInside (w : LoggedQueue) (op : LogOp) (_ : LoggedQueue) : Prop :=
  match op with
  | .log e => LogsInside w e
  | .flush area => LoadsInside w area

/-- No size read lies across the pool's end, and the record loaded leaves room
for a terminator: its format came to at most 252 characters, or the pool is
smaller than the area. -/
def LeavesRoom (w : LoggedQueue) (op : LogOp) (_ : LoggedQueue) : Prop :=
  match op with
  | .log e => HeadersFit w.q.size w.q.rpos (w.dropped e)
  | .flush _ => ∀ e ∈ w.pending.head?,
      w.q.rpos + 2 ≤ w.q.size ∧ (e.Short ∨ w.q.size < 296)

variable {size n : Nat} {e : LogEntry} {ps : List LogEntry} {msg area : Msg}
  {w t : LoggedQueue} {op : LogOp}

/-! ## The record -/

theorem length_written (e : LogEntry) : e.formatted.written.length ≤ 256 := by
  simp only [LogEntry.formatted, bflogLineBufferSize, List.length_append, List.length_take,
    List.length_singleton]
  omega

theorem string_bflogMsg (hn : n ≤ min e.text.length 255) :
    (bflogMsg e.formatted e.area).string n = e.text.take n := by
  have hlen := length_written e
  have hwhole : (bflogMsg e.formatted e.area).get 36 e.formatted.written.length =
      e.formatted.written := by
    unfold bflogMsg
    dsimp only
    rw [Record.get_putWord_disjoint _ (.inr (by decide)), Record.get_put_same _ _ _ (by omega)]
  have hpart : (bflogMsg e.formatted e.area).get 36 n =
      ((bflogMsg e.formatted e.area).get 36 e.formatted.written.length).take n := by
    unfold Record.get slice
    rw [List.take_take, Nat.min_eq_left]
    simp only [LogEntry.formatted, bflogLineBufferSize, List.length_append, List.length_take,
      List.length_singleton]
    omega
  rw [Msg.string, hpart, hwhole]
  simp only [LogEntry.formatted, bflogLineBufferSize]
  rw [List.take_append_of_le_length (by rw [List.length_take]; omega), List.take_take,
    Nat.min_eq_left (by omega)]

theorem stored_length (hpos : 0 < size) (hlt : size < 2 ^ 16) (e : LogEntry) :
    (e.stored size).length = min (alignedSize e.formatted.trueSize) size := by
  obtain ⟨hsize, hlength, -⟩ := clampMsg_ok hpos hlt e.formatted e.area
  rw [LogEntry.stored, Bflog.stored, hlength, hsize]

theorem trueSize_formatted (e : LogEntry) :
    e.formatted.trueSize = sizeofBflogMsg +
      if e.fails then bflogLineBufferSize else min e.text.length bflogLineBufferSize := by
  unfold LogCall.trueSize LogEntry.formatted
  dsimp only
  cases e.fails with
  | true => rfl
  | false =>
    simp only [Bool.false_eq_true, if_false]
    split <;> omega

/-- A record leaves a byte of the area exactly when its text is short or cut. -/
theorem stored_length_lt_iff (hpos : 0 < size) (hlt : size < 2 ^ 16) :
    (e.stored size).length < 296 ↔ e.Short ∨ size < 296 := by
  rw [stored_length hpos hlt, trueSize_formatted, alignedSize, sizeofBflogMsg, bflogLineBufferSize,
    LogEntry.Short]
  cases e.fails with
  | true =>
    simp only [if_true, reduceCtorEq, false_and, false_or]
    split <;> omega
  | false =>
    simp only [Bool.false_eq_true, if_false, true_and]
    split <;> omega

theorem textLimit_le (hn : n = min e.text.length (textLimit size)) :
    n ≤ min e.text.length 255 ∧ 36 + n ≤ max 36 size := by
  unfold textLimit bflogLineBufferSize at hn
  omega

/-- The text in an area is that of the message in it. -/
theorem string_eq_slice {msg : Msg} (h : 36 + n ≤ msg.message.length) :
    msg.string n = slice msg.message 36 n := by
  have hsize : 36 + n ≤ msg.size := by
    rw [Msg.message, List.length_take] at h
    omega
  rw [Msg.string, Record.get, Msg.message, slice, slice, List.drop_take, List.take_take,
    Nat.min_eq_left (by omega)]

theorem string_clampMsg (size : Nat) (msg : Msg) : (clampMsg size msg).string n = msg.string n := by
  unfold clampMsg
  split
  · exact Record.get_putWord_disjoint _ (.inr (by omega))
  · rfl

/-- What the area of a loaded record shows is the record's own text. -/
theorem string_of_message (hpos : 0 < size) (hlt : size < 2 ^ 16)
    (hmessage : area.message = e.stored size) :
    area.string (min e.text.length (textLimit size)) = e.text.take (textLimit size) := by
  obtain ⟨hn, hfits⟩ := @textLimit_le size _ e rfl
  have hlength := stored_length hpos hlt e
  have hsize : 36 + min e.text.length 255 ≤ alignedSize e.formatted.trueSize := by
    rw [trueSize_formatted, alignedSize, sizeofBflogMsg, bflogLineBufferSize]
    cases e.fails with
    | true =>
      simp only [if_true]
      split <;> omega
    | false =>
      simp only [Bool.false_eq_true, if_false]
      split <;> omega
  have htake : e.text.take (textLimit size) = e.text.take (min e.text.length (textLimit size)) := by
    rw [Nat.min_comm, ← List.take_eq_take_min]
  rw [htake]
  generalize min e.text.length (textLimit size) = n at hn hfits
  rcases Nat.eq_zero_or_pos n with rfl | hsome
  · simp [Msg.string, Record.get, slice]
  · have hroom : 36 + n ≤ (e.stored size).length := by omega
    calc area.string n
        = slice area.message 36 n := string_eq_slice (by rw [hmessage]; exact hroom)
      _ = slice (clampMsg size (bflogMsg e.formatted e.area)).message 36 n := by rw [hmessage]; rfl
      _ = (clampMsg size (bflogMsg e.formatted e.area)).string n := (string_eq_slice hroom).symm
      _ = (bflogMsg e.formatted e.area).string n := string_clampMsg size _
      _ = e.text.take n := string_bflogMsg hn

/-! ## One call -/

theorem pending_logged {r : Queue × List UInt8}
    (h : queuePut w.q w.pool (bflogMsg e.formatted e.area) = some r) :
    (w.logged e).pending = w.pending.drop (w.dropped e).length ++ [e] := by
  unfold LoggedQueue.logged
  rw [h]

/-- The queue holds the records of the pending calls, unless it is done. -/
def Holding (size : Nat) (w : LoggedQueue) : Prop :=
  w.halted = false → ∃ b : Backlog UInt8 size, QueueOk w.q w.pool b ∧ b.messages = w.messages

theorem logsInside_iff {b : Backlog UInt8 size} (h : QueueOk w.q w.pool b)
    (hb : b.messages = w.messages) :
    LogsInside w e ↔ HeadersFit w.q.size w.q.rpos (w.dropped e) := by
  have hlen := length_written e
  have htext : (bflogMsg e.formatted e.area).string (min e.text.length (bflogLineBufferSize - 1)) =
      e.text.take (bflogLineBufferSize - 1) := by
    rw [string_bflogMsg (by unfold bflogLineBufferSize; omega), Nat.min_comm,
      ← List.take_eq_take_min]
  obtain ⟨hsize, hlength, hok⟩ := clampMsg_ok h.size_pos h.size_lt e.formatted e.area
  have hfits : (e.stored size).length ≤ size := by
    rw [stored_length h.size_pos h.size_lt]
    exact Nat.min_le_right _ _
  obtain ⟨hput, hback⟩ := h.put (rfl : clampMsg size (bflogMsg e.formatted e.area) = _) hok hlength
    hfits
  unfold LogsInside LoggedQueue.dropped
  rw [← hb, h.size_eq]
  constructor
  · rintro ⟨-, -, hsome⟩
    exact hback hsome
  · intro hheaders
    obtain ⟨q', pool', hresult, -⟩ := hput hheaders
    exact ⟨by omega, htext, by rw [hresult]; exact Option.some_ne_none _⟩

theorem holding_logged {b : Backlog UInt8 size} (h : QueueOk w.q w.pool b)
    (hb : b.messages = w.messages) (hheaders : HeadersFit w.q.size w.q.rpos (w.dropped e)) :
    Holding size (w.logged e) := by
  obtain ⟨hsize, hlength, hok⟩ := clampMsg_ok h.size_pos h.size_lt e.formatted e.area
  have hfits : (e.stored size).length ≤ size := by
    rw [stored_length h.size_pos h.size_lt]
    exact Nat.min_le_right _ _
  obtain ⟨hput, -⟩ := h.put (rfl : clampMsg size (bflogMsg e.formatted e.area) = _) hok hlength hfits
  unfold LoggedQueue.dropped at hheaders
  rw [← hb, h.size_eq] at hheaders
  obtain ⟨q', pool', hresult, -, hnext⟩ := hput hheaders
  intro _
  have hlogged : w.logged e =
      { w with
        q := q'
        pool := pool'
        pending := w.pending.drop (w.dropped e).length ++ [e] } := by
    unfold LoggedQueue.logged
    rw [hresult]
  rw [hlogged]
  refine ⟨_, hnext, ?_⟩
  have hmessages : w.pending.map (LogEntry.stored size) = b.messages := by
    rw [hb, LoggedQueue.messages, h.size_eq]
  have hdropped : w.dropped e = Backlog.dropped size (e.stored size).length b.messages := by
    rw [LoggedQueue.dropped, ← hb, h.size_eq]
  have hkept : (w.pending.drop (w.dropped e).length).map (LogEntry.stored size) =
      Backlog.kept size (e.stored size).length b.messages := by
    rw [List.map_drop, hmessages, hdropped, Backlog.drop_dropped]
  calc Backlog.kept size (e.stored size).length b.messages ++ [e.stored size]
      = (w.pending.drop (w.dropped e).length ++ [e]).map (LogEntry.stored size) := by
        rw [List.map_append, hkept, List.map_singleton]
    _ = _ := by rw [LoggedQueue.messages, hnext.size_eq]

/-! ## One load -/

theorem messages_cons (hw : w.pending = e :: ps) (hsize : w.q.size = size) :
    w.messages = e.stored size :: ps.map (LogEntry.stored size) := by
  rw [LoggedQueue.messages, hw, hsize, List.map_cons]

/-- What is left of a queue that holds records is not the whole pool. -/
theorem loadsInside_iff {b : Backlog UInt8 size} (h : QueueOk w.q w.pool b)
    (hb : b.messages = w.messages) :
    LoadsInside w area ↔ ∀ e ∈ w.pending.head?,
      w.q.rpos + 2 ≤ w.q.size ∧ (e.Short ∨ w.q.size < 296) := by
  unfold LoadsInside
  cases hpending : w.pending with
  | nil =>
    have hempty : b.messages = [] := by
      rw [hb, LoggedQueue.messages, hpending, List.map_nil]
    rw [h.get_empty hempty area]
    constructor
    · intro _ e he
      cases he
    · intro _
      refine ⟨_, _, rfl, ?_⟩
      intro e he
      cases he
  | cons e ps =>
    have hcons := hb.trans (messages_cons hpending h.size_eq)
    obtain ⟨hget, hback⟩ := h.get_cons hcons area
    rw [stored_length_lt_iff h.size_pos h.size_lt] at hget hback
    rw [h.size_eq]
    constructor
    · rintro ⟨q', area', hresult, -⟩ e' he
      cases he
      exact hback (by rw [hresult]; exact Option.some_ne_none _)
    · intro hroom
      obtain ⟨q', area', hresult, hmessage, -⟩ := hget (hroom e rfl)
      refine ⟨q', area', hresult, ?_⟩
      intro e' he
      cases he
      exact string_of_message h.size_pos h.size_lt hmessage

theorem holding_flushed {b : Backlog UInt8 size} (h : QueueOk w.q w.pool b)
    (hb : b.messages = w.messages)
    (hroom : ∀ e ∈ w.pending.head?,
      w.q.rpos + 2 ≤ w.q.size ∧ (e.Short ∨ w.q.size < 296)) :
    Holding size (w.flushed area) := by
  intro _
  cases hpending : w.pending with
  | nil =>
    have hempty : b.messages = [] := by
      rw [hb, LoggedQueue.messages, hpending, List.map_nil]
    have hflushed : w.flushed area = w := by
      unfold LoggedQueue.flushed
      rw [h.get_empty hempty area]
      dsimp only
      rw [hpending, List.tail_nil, ← hpending]
    rw [hflushed]
    exact ⟨b, h, hb⟩
  | cons e ps =>
    have hcons := hb.trans (messages_cons hpending h.size_eq)
    have hroom := hroom e (by rw [hpending]; rfl)
    rw [h.size_eq, ← stored_length_lt_iff h.size_pos h.size_lt] at hroom
    obtain ⟨q', area', hresult, -, -, hnext⟩ := (h.get_cons hcons area).1 hroom
    have hflushed : w.flushed area = { w with q := q', pending := ps } := by
      unfold LoggedQueue.flushed
      rw [hresult, hpending, List.tail_cons]
    rw [hflushed]
    refine ⟨b.pop, hnext, ?_⟩
    calc b.messages.tail
        = ps.map (LogEntry.stored size) := by rw [hcons, List.tail_cons]
      _ = _ := by rw [LoggedQueue.messages, hnext.size_eq]

/-! ## Any calls -/

theorem not_halted (h : logStep w op = some t) : w.halted = false := by
  unfold logStep at h
  split at h
  · cases h
  · exact Bool.eq_false_iff.mpr ‹_›

theorem staysInside_iff (hinv : Holding size w) (h : logStep w op = some t) :
    StaysInside w op t ↔ LeavesRoom w op t := by
  obtain ⟨b, hok, hb⟩ := hinv (not_halted h)
  cases op with
  | log e => exact logsInside_iff hok hb
  | flush area => exact loadsInside_iff hok hb

theorem holding_step (hinv : Holding size w) (h : logStep w op = some t)
    (hsafe : LeavesRoom w op t) : Holding size t := by
  have hrun := not_halted h
  obtain ⟨b, hok, hb⟩ := hinv hrun
  unfold logStep at h
  rw [if_neg (by rw [hrun]; exact Bool.false_ne_true)] at h
  cases op with
  | log e =>
    cases h
    exact holding_logged hok hb hsafe
  | flush area =>
    cases h
    exact holding_flushed hok hb hsafe

/-- A recorder's queue that `bflog_create` set up. -/
def newLoggedQueue (pool : List UInt8) : LoggedQueue :=
  { q := newQueue pool.length, pool := pool, pending := [], halted := false }

/-- In every run of calls and loads all bytes stay in the areas and the texts
are those of the calls, exactly where no size read lies across the pool's end
and every record loaded leaves room for its terminator. -/
theorem staysInside_along_iff (pool : List UInt8) (hpos : 0 < pool.length)
    (hlt : pool.length < 2 ^ 16) (ops : List LogOp) :
    Along logStep StaysInside (newLoggedQueue pool) ops ↔
      Along logStep LeavesRoom (newLoggedQueue pool) ops := by
  have hstart : Holding pool.length (newLoggedQueue pool) := by
    intro _
    exact ⟨Backlog.empty, newQueue_ok hpos hlt rfl, rfl⟩
  exact along_iff_of_invariant (fun _ _ _ => staysInside_iff) (fun _ _ _ => holding_step) hstart

/-- A call whose format comes to `n` characters. -/
def logCharacters (n : Nat) : LogEntry :=
  { call := logText n, text := List.replicate n 0x61, fails := false, area := Record.zero 296 }

theorem staysInside_short_record :
    Along logStep StaysInside (newLoggedQueue (List.replicate 128 0))
      [.log (logCharacters 5), .flush (Record.zero 296)] := by
  refine (staysInside_along_iff _ (by simp) (by simp) _).mpr ?_
  intro t ht
  obtain rfl := Option.some.inj ht
  have hnone : (newLoggedQueue (List.replicate 128 0)).dropped (logCharacters 5) = [] := rfl
  refine ⟨by dsimp only [LeavesRoom]; rw [hnone]; trivial, ?_⟩
  intro t ht
  refine ⟨?_, along_nil⟩
  intro e he
  have hput : (queuePut (newLoggedQueue (List.replicate 128 0)).q (List.replicate 128 0)
      (bflogMsg (logCharacters 5).formatted (logCharacters 5).area)).isSome := by decide +kernel
  obtain ⟨r, hr⟩ := Option.isSome_iff_exists.mp hput
  have hpending := @pending_logged (logCharacters 5) (newLoggedQueue (List.replicate 128 0)) r hr
  rw [hpending, hnone] at he
  obtain rfl := Option.some.inj he
  have hshort : (logCharacters 5).Short := ⟨rfl, by decide⟩
  constructor
  · decide +kernel
  · exact Or.inl hshort

/-- 253 characters fill the area, and their terminator goes behind it. -/
theorem full_record_outside :
    ¬ Along logStep StaysInside (newLoggedQueue (List.replicate 512 0))
      [.log (logCharacters 253), .flush (Record.zero 296)] := by
  intro h
  obtain ⟨-, hloaded⟩ := h _ rfl
  have hflush : (logStep ((newLoggedQueue (List.replicate 512 0)).logged (logCharacters 253))
      (.flush (Record.zero 296))).isSome := by decide +kernel
  obtain ⟨t, ht⟩ := Option.isSome_iff_exists.mp hflush
  obtain ⟨⟨q', area', hresult, -⟩, -⟩ := hloaded t ht
  have hnone : (queueGet ((newLoggedQueue (List.replicate 512 0)).logged (logCharacters 253)).q
      ((newLoggedQueue (List.replicate 512 0)).logged (logCharacters 253)).pool
      (Record.zero 296)).isNone := by decide +kernel
  rw [hresult] at hnone
  cases hnone

end BouffaloSdk.Bflog
