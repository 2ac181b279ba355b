import BouffaloSdk.Kit.LittleEndian
import BouffaloSdk.Kit.Runs
import BouffaloSdk.Kit.Scanner
import BouffaloSdk.Kit.Slice
import BouffaloSdk.Lhal.BflbCommon

/-!
# The frames of the low-power HCI UART

`uart_recv_data` of `bl_hci_tl/hci_uart_lp.c` and what it calls. It puts what the DMA gives
behind what is left in a buffer of 512 bytes and takes frames out of it: a start, a sequence
number, a type with a length, the CRC of these, the payload, the CRC of it all. The two CRC
functions are parameters.
-/

namespace BouffaloSdk.HciUartLp
open Kit

def uartRxBufSize : Nat := 512
def uartStart : List UInt8 := [0x80, 0x55]
def uartStartSize : Nat := 2
def uartData : Nat := 0x01
def uartAck : Nat := 0x02

/-- `sizeof(UARTCMD_HEAD)`. -/
def headSize : Nat := 8

/-- `sizeof(crc32)`. -/
def crcSize : Nat := 4

/-- The sequence numbers of the receiver, the event bits, and what has been done: the
acknowledgements asked for and the payloads reported. -/
structure Receiver where
  recvSnValid : Bool
  recvSn : Nat
  recvNextSn : Nat
  sendWaitAckSn : Nat
  eventTxDone : Bool
  eventAck : Bool
  acks : Nat
  reported : List (List UInt8)

/-- The process buffer, how much of it is filled, the receiver, and what
`uart_data_process` was given. -/
structure UartProc where
  buf : List UInt8
  len : Nat
  rx : Receiver
  passed : List (List UInt8)

/-- The `n` bytes at `pos`, or nothing where they leave the object. -/
def readBytes (data : List UInt8) (pos n : Nat) : Option (List UInt8) :=
  if pos + n ≤ data.length then some (slice data pos n) else none

section
variable (crc16 : List UInt8 → UInt16) (crc32 : List UInt8 → UInt32)

/-- The comparison of the CRC that ends `data` with the one computed. -/
def crcRight (data : List UInt8) : Bool :=
  data.drop (data.length - crcSize) = toLE crcSize (crc32 (data.take (data.length - crcSize))).toNat

/-- `uart_data_process`, and whether it returns 0. -/
def uartDataProcess (r : Receiver) (data : List UInt8) : Receiver × Bool :=
  if crcRight crc32 data then
    let sn := ofLE (slice data 2 2)
    let typeAndLen := ofLE (slice data 4 2)
    let cmdType := typeAndLen / 2 ^ 12 % 2 ^ 4
    if cmdType = uartData then
      if r.recvSnValid ∧ sn = r.recvSn then ({ r with acks := r.acks + 1 }, true)
      else if r.recvSnValid ∧ sn ≠ r.recvNextSn then (r, true)
      else
        ({ r with
            recvSnValid := true
            recvSn := sn
            recvNextSn := (sn + typeAndLen % 2 ^ 12) % 2 ^ 16
            acks := r.acks + 1
            reported := r.reported ++ [slice data headSize (data.length - headSize - crcSize)] },
          true)
    else if cmdType = uartAck then
      if r.eventTxDone ∧ sn = r.sendWaitAckSn then
        ({ r with eventTxDone := false, eventAck := true }, true)
      else (r, true)
    else (r, true)
  else (r, false)

/-- The loop that looks for a start at `positions` positions from `pos` on. -/
def findHead (data : List UInt8) : (positions : Nat) → (pos : Nat) → Option (Option Nat)
  | 0, _ => some none
  | positions + 1, pos =>
    (readBytes data pos uartStartSize).bind fun start =>
      if start = uartStart then some (some pos) else findHead data positions (pos + 1)

/-- The length field of a header. -/
def dataLen (head : List UInt8) : Nat := ofLE (slice head 4 2) % 2 ^ 12

/-- `uart_find_data`: the bytes it has scanned, and whether it waits for more. -/
def uartFindData (p : UartProc) : Option (UartProc × Nat × Bool) :=
  (findHead p.buf (p.len + 1 - uartStartSize) 0).bind fun
    | none => some (p, if uartStartSize < p.len then p.len - uartStartSize else 0, false)
    | some headPos =>
      if p.len - headPos < headSize then some (p, headPos, true)
      else (readBytes p.buf headPos headSize).bind fun head =>
        if (crc16 (head.take 6)).toNat ≠ ofLE (slice head 6 2) then
          some (p, headPos + uartStartSize, false)
        else if uartRxBufSize < dataLen head then some (p, headPos + uartStartSize, false)
        else
          let cmdLen := headSize + dataLen head + crcSize
          if p.len - headPos < cmdLen then some (p, headPos, true)
          else (readBytes p.buf headPos cmdLen).bind fun data =>
            let (rx, ok) := uartDataProcess crc32 p.rx data
            some ({ p with rx, passed := p.passed ++ [data] },
              headPos + (if ok then cmdLen else uartStartSize), false)

/-- What is scanned leaves the buffer. The `memcpy` is between overlapping parts, and read
as one that goes forward. -/
def consume (p : UartProc) (scanned : Nat) : Option UartProc :=
  if 0 < scanned then
    if scanned ≤ p.len then
      (readBytes p.buf scanned (p.len - scanned)).bind fun rest =>
        some { p with buf := blit p.buf 0 rest, len := p.len - scanned }
    else none
  else some p

/-- The loop of `uart_recv_data`. -/
def recvLoop : (fuel : Nat) → UartProc → Option UartProc
  | 0, _ => none
  | fuel + 1, p =>
    if p.len < headSize then some p
    else
      (uartFindData crc16 crc32 p).bind fun (q, scanned, incomplete) =>
        (consume q scanned).bind fun q => if incomplete then some q else recvLoop fuel q

/-- `uart_recv_data`, with nothing where an access leaves the buffer or the fuel runs out. -/
def uartRecvData (fuel : Nat) (p : UartProc) (data : List UInt8) : Option UartProc :=
  let p := if uartRxBufSize < p.len + data.length then { p with len := 0 } else p
  if p.len + data.length ≤ p.buf.length then
    recvLoop crc16 crc32 fuel { p with buf := blit p.buf p.len data, len := p.len + data.length }
  else none

/-! ## The frames that are sent -/

/-- How both senders fill the memory of a frame. A CRC is copied as 4 bytes, so that the
first one reaches into the payload before the payload is written. -/
def buildFrame (type : Nat) (sn : Nat) (memory payload : List UInt8) : List UInt8 :=
  let msg := blit memory 0 uartStart
  let msg := blit msg uartStartSize (toLE 2 sn)
  let msg := blit msg (uartStartSize + 2) (toLE 2 (type <<< 12 ||| payload.length))
  let msg := blit msg (headSize - 2) (toLE 4 (crc16 (msg.take (headSize - 2))).toNat)
  let msg := blit msg headSize payload
  blit msg (headSize + payload.length)
    (toLE crcSize (crc32 (msg.take (headSize + payload.length))).toNat)

/-- The frame of `hci_uart_write`, in the memory that `malloc` has given. -/
def hciUartWrite (sn : Nat) (memory payload : List UInt8) : List UInt8 :=
  buildFrame crc16 crc32 uartData sn memory payload

/-- The frame of `hci_uart_ack_task`. -/
def hciUartAckTask (recvNextSn : Nat) (ackData : List UInt8) : List UInt8 :=
  buildFrame crc16 crc32 uartAck recvNextSn ackData []

/-- The frames that the two sides send: data with 1 to 500 bytes of payload, and
acknowledgements. -/
inductive Sent : List UInt8 → Prop
  | data (sn : Nat) (memory payload : List UInt8) (some : payload ≠ [])
      (fits : payload.length ≤ 500)
      (room : memory.length = headSize + payload.length + crcSize) :
      Sent (hciUartWrite crc16 crc32 sn memory payload)
  | ack (recvNextSn : Nat) (ackData : List UInt8) (room : ackData.length = headSize + crcSize) :
      Sent (hciUartAckTask crc16 crc32 recvNextSn ackData)

/-- What a stream must start with for a frame to be waited for, and its length. -/
def headClaim (s : List UInt8) : Option Nat :=
  if headSize ≤ s.length ∧ s.take uartStartSize = uartStart ∧
      (crc16 (s.take 6)).toNat = ofLE (slice s 6 2) ∧ dataLen s ≤ uartRxBufSize then
    some (headSize + dataLen s + crcSize)
  else none
end

/-! ## The scanner -/

variable {crc16 : List UInt8 → UInt16} {crc32 : List UInt8 → UInt32} {p q : UartProc}
variable {s data more : List UInt8} {n pos fuel scanned : Nat}

theorem headClaim_append (h : headSize ≤ s.length) (more : List UInt8) :
    headClaim crc16 (s ++ more) = headClaim crc16 s := by
  have hlen : 8 ≤ s.length := h
  have hstart : (s ++ more).take uartStartSize = s.take uartStartSize :=
    List.take_append_of_le_length (Nat.le_trans (by decide) hlen)
  have hsix : (s ++ more).take 6 = s.take 6 := List.take_append_of_le_length (by omega)
  have hcrc : slice (s ++ more) 6 2 = slice s 6 2 := slice_append_left (by omega) more
  have hdata : dataLen (s ++ more) = dataLen s := by
    unfold dataLen
    rw [slice_append_left (by omega)]
  have hboth : headSize ≤ (s ++ more).length := by
    rw [List.length_append]
    omega
  unfold headClaim
  rw [hstart, hsix, hcrc, hdata]
  simp only [h, hboth, true_and]

theorem headSize_le_of_claim (h : headClaim crc16 s = some n) : headSize ≤ s.length := by
  unfold headClaim at h
  split at h
  · rename_i hhead
    exact hhead.1
  · cases h

variable (crc16 crc32) in
/-- What `uart_find_data` looks for. -/
def uartScanner : Scanner UInt8 where
  claim := headClaim crc16
  good := crcRight crc32
  claim_pos := by
    intro s n h
    unfold headClaim at h
    split at h
    · cases h
      exact Nat.succ_pos _
    · cases h
  claim_append := by
    intro s n more h
    rw [headClaim_append (headSize_le_of_claim h), h]

/-- Where two bytes are known not to be a start, no header stands. -/
theorem refused_of_start (h : uartStartSize ≤ s.length)
    (hstart : s.take uartStartSize ≠ uartStart) : (uartScanner crc16 crc32).Refused s := by
  intro more
  have htake : (s ++ more).take uartStartSize = s.take uartStartSize :=
    List.take_append_of_le_length h
  apply if_neg
  rw [htake]
  exact fun hhead => hstart hhead.2.1

/-- A whole header that claims nothing. -/
theorem refused_of_head (h : headSize ≤ s.length) (hclaim : headClaim crc16 s = none) :
    (uartScanner crc16 crc32).Refused s := by
  intro more
  have happend : headClaim crc16 (s ++ more) = headClaim crc16 s := headClaim_append h more
  rw [hclaim] at happend
  exact happend

/-- The second byte of a start begins no other. -/
theorem refused_in_start (h : s.take uartStartSize = uartStart) :
    (uartScanner crc16 crc32).Refused (s.drop 1) := by
  intro more
  obtain ⟨rest, rfl⟩ : ∃ rest, s = uartStart ++ rest :=
    ⟨s.drop uartStartSize, by rw [← h, List.take_append_drop]⟩
  apply if_neg
  rintro ⟨-, hstart, -⟩
  have hfirst := congrArg List.head? hstart
  simp [uartStart, uartStartSize] at hfirst

/-- Nothing is found in less than a header. -/
theorem frames_of_short (h : s.length < headSize) : (uartScanner crc16 crc32).frames s = [] := by
  induction s with
  | nil => rfl
  | cons b s ih =>
    have hclaim : (uartScanner crc16 crc32).claim (b :: s) = none :=
      if_neg fun hhead => Nat.not_le.mpr h hhead.1
    rw [Scanner.frames_unclaimed hclaim]
    rw [List.length_cons] at h
    exact ih (by omega)

/-! ## One look at the buffer -/

/-- The buffer has its size. -/
structure UartProc.Sound (p : UartProc) : Prop where
  buf : p.buf.length = uartRxBufSize
  len : p.len ≤ uartRxBufSize

/-- What the buffer is filled with. -/
def UartProc.held (p : UartProc) : List UInt8 := p.buf.take p.len

theorem UartProc.Sound.length_held (hp : p.Sound) : p.held.length = p.len := by
  rw [held, List.length_take, hp.buf, Nat.min_eq_left hp.len]

theorem readBytes_eq (h : pos + n ≤ data.length) : readBytes data pos n = some (slice data pos n) :=
  if_pos h

theorem readBytes_held (hp : p.Sound) (h : pos + n ≤ p.len) :
    readBytes p.buf pos n = some (slice p.held pos n) := by
  rw [readBytes_eq (by rw [hp.buf]; exact Nat.le_trans h hp.len), UartProc.held,
    slice_take p.buf h]

/-- The loop finds the first start, if there is one. -/
theorem findHead_spec (data : List UInt8) {positions : Nat} (h : pos + positions < data.length) :
    (∃ k, findHead data positions pos = some (some k) ∧ pos ≤ k ∧ k < pos + positions ∧
      slice data k uartStartSize = uartStart ∧
        ∀ i, pos ≤ i → i < k → slice data i uartStartSize ≠ uartStart) ∨
    (findHead data positions pos = some none ∧
      ∀ i, pos ≤ i → i < pos + positions → slice data i uartStartSize ≠ uartStart) := by
  induction positions generalizing pos with
  | zero => exact .inr ⟨rfl, fun i hi hi' => by omega⟩
  | succ positions ih =>
    have hread : readBytes data pos uartStartSize = some (slice data pos uartStartSize) :=
      readBytes_eq (by unfold uartStartSize; omega)
    rw [findHead, hread, Option.bind_some]
    by_cases hstart : slice data pos uartStartSize = uartStart
    · rw [if_pos hstart]
      exact .inl ⟨pos, rfl, Nat.le_refl pos, by omega, hstart, fun i hi hi' => by omega⟩
    · rw [if_neg hstart]
      have hfirst : ∀ i, pos ≤ i → i < pos + 1 → slice data i uartStartSize ≠ uartStart := by
        intro i hi hi'
        obtain rfl : i = pos := by omega
        exact hstart
      rcases ih (show pos + 1 + positions < data.length by omega) with
        ⟨k, hk, hlo, hhi, hat, hbefore⟩ | ⟨hnone, hbefore⟩
      · refine .inl ⟨k, hk, by omega, by omega, hat, fun i hi hi' => ?_⟩
        by_cases hi'' : i < pos + 1
        · exact hfirst i hi hi''
        · exact hbefore i (by omega) hi'
      · refine .inr ⟨hnone, fun i hi hi' => ?_⟩
        by_cases hi'' : i < pos + 1
        · exact hfirst i hi hi''
        · exact hbefore i (by omega) (by omega)

/-- Its result is that of the CRC. -/
theorem uartDataProcess_snd (r : Receiver) (data : List UInt8) :
    (uartDataProcess crc32 r data).2 = crcRight crc32 data := by
  unfold uartDataProcess
  split
  · rename_i hcrc
    simp only [hcrc]
    split
    · split
      · rfl
      · split <;> rfl
    · split
      · split <;> rfl
      · rfl
  · rename_i hcrc
    simp only [hcrc]

/-- What one look at the buffer does: it leaves the buffer as it is, and what it has scanned
and passed on is what the scanner finds there. -/
structure Looked (crc16 : List UInt8 → UInt16) (crc32 : List UInt8 → UInt32) (p q : UartProc)
    (scanned : Nat) (incomplete : Bool) : Prop where
  buf : q.buf = p.buf
  len : q.len = p.len
  le : scanned ≤ p.len
  moves : incomplete = false → 0 < scanned
  waits : incomplete = true → (uartScanner crc16 crc32).frames (p.held.drop scanned) = []
  found : ∃ new, q.passed = p.passed ++ new ∧
    (uartScanner crc16 crc32).Yields p.held (new.filter (crcRight crc32)) (p.held.drop scanned)

/-- A look that passes nothing on. -/
theorem looked_past {incomplete : Bool} (hp : p.Sound) (hle : scanned ≤ p.len)
    (hmoves : incomplete = false → 0 < scanned)
    (hwaits : incomplete = true → (uartScanner crc16 crc32).frames (p.held.drop scanned) = [])
    (h : ∀ i, i < scanned → (uartScanner crc16 crc32).Refused (p.held.drop i)) :
    Looked crc16 crc32 p p scanned incomplete where
  buf := rfl
  len := rfl
  le := hle
  moves := hmoves
  waits := hwaits
  found := ⟨[], (List.append_nil _).symm, Scanner.yields_drop h (by rwa [hp.length_held])⟩

theorem refused_at (hp : p.Sound) (hn : n + uartStartSize ≤ p.len)
    (h : slice p.buf n uartStartSize ≠ uartStart) :
    (uartScanner crc16 crc32).Refused (p.held.drop n) := by
  apply refused_of_start
  · rw [List.length_drop, hp.length_held]
    omega
  · rw [← slice_take p.buf hn] at h
    exact h

/-- Both bytes of a start that is no header are passed over. -/
theorem refused_to {head : Nat} (hn : head + headSize ≤ p.held.length)
    (hbefore : ∀ i, i < head → (uartScanner crc16 crc32).Refused (p.held.drop i))
    (hstart : (p.held.drop head).take uartStartSize = uartStart)
    (hclaim : headClaim crc16 (p.held.drop head) = none) :
    ∀ i, i < head + uartStartSize → (uartScanner crc16 crc32).Refused (p.held.drop i) := by
  intro i hi
  unfold uartStartSize at hi
  rcases Nat.lt_trichotomy i head with hlt | heq | hgt
  · exact hbefore i hlt
  · subst heq
    exact refused_of_head (by rw [List.length_drop]; omega) hclaim
  · obtain rfl : i = head + 1 := by omega
    rw [← List.drop_drop]
    exact refused_in_start hstart

/-- With the whole header at `k`, the rest of the look. -/
theorem lookAtHead {k : Nat} (hp : p.Sound) (hk : findHead p.buf (p.len + 1 - uartStartSize) 0 =
      some (some k)) (hhead : k + headSize ≤ p.len)
    (hstart : (p.held.drop k).take uartStartSize = uartStart)
    (hpast : ∀ i, i < k → (uartScanner crc16 crc32).Refused (p.held.drop i)) :
    ∃ q scanned incomplete, uartFindData crc16 crc32 p = some (q, scanned, incomplete) ∧
      Looked crc16 crc32 p q scanned incomplete := by
  have hheld := hp.length_held
  set s := p.held.drop k with hs
  have hslen : s.length = p.len - k := by rw [hs, List.length_drop, hheld]
  have hhead' : headSize ≤ s.length := by omega
  have hread : readBytes p.buf k headSize = some (s.take headSize) := readBytes_held hp hhead
  have hsix : (s.take headSize).take 6 = s.take 6 := by
    rw [List.take_take]
    rfl
  have hcrc : slice (s.take headSize) 6 2 = slice s 6 2 := slice_take s (by decide)
  have hdata : dataLen (s.take headSize) = dataLen s := by
    unfold dataLen
    rw [slice_take s (by decide)]
  have hshort : ¬ p.len - k < headSize := by omega
  unfold uartFindData
  simp only [hk, Option.bind_some, if_neg hshort, hread, hsix, hcrc, hdata]
  have hskip : headClaim crc16 s = none →
      Looked crc16 crc32 p p (k + uartStartSize) false := by
    intro hclaim
    apply looked_past hp
    · unfold uartStartSize
      unfold headSize at hhead
      omega
    · exact fun _ => Nat.succ_pos _
    · simp
    · exact refused_to (by omega) hpast hstart hclaim
  by_cases hbad : (crc16 (s.take 6)).toNat ≠ ofLE (slice s 6 2)
  · refine ⟨p, k + uartStartSize, false, if_pos hbad, hskip (if_neg ?_)⟩
    exact fun hclaim => hbad hclaim.2.2.1
  rw [if_neg hbad]
  by_cases hlong : uartRxBufSize < dataLen s
  · refine ⟨p, k + uartStartSize, false, if_pos hlong, hskip (if_neg ?_)⟩
    exact fun hclaim => Nat.not_le.mpr hlong hclaim.2.2.2
  rw [if_neg hlong]
  set cmdLen := headSize + dataLen s + crcSize with hcmd
  have hclaim : (uartScanner crc16 crc32).claim s = some cmdLen :=
    if_pos ⟨hhead', hstart, not_not.mp hbad, Nat.not_lt.mp hlong⟩
  by_cases hwait : p.len - k < cmdLen
  · refine ⟨p, k, true, if_pos hwait, looked_past hp (by omega) (by simp) (fun _ => ?_) hpast⟩
    exact Scanner.frames_short hclaim (by rw [← hslen] at hwait; exact hwait)
  have hcmdRead : readBytes p.buf k cmdLen = some (s.take cmdLen) :=
    readBytes_held hp (by omega)
  have hto : (uartScanner crc16 crc32).Yields p.held [] s := Scanner.yields_drop hpast (by omega)
  simp only [if_neg hwait, hcmdRead, Option.bind_some, uartDataProcess_snd]
  refine ⟨_, _, _, rfl, rfl, rfl, ?_, fun _ => ?_, by simp, [s.take cmdLen], rfl, ?_⟩
  · unfold headSize at hhead
    unfold uartStartSize
    split <;> omega
  · unfold headSize at hcmd
    unfold uartStartSize
    split <;> omega
  · cases hgood : crcRight crc32 (s.take cmdLen) with
    | true =>
      have htake := Scanner.yields_good hclaim (by omega) hgood
      rw [hs, List.drop_drop] at htake
      rw [List.filter_cons_of_pos hgood, if_pos rfl]
      exact hto.trans htake
    | false =>
      have hfirst := Scanner.yields_bad hclaim (by omega) hgood
      have hsecond : (uartScanner crc16 crc32).Yields (s.drop 1) [] ((s.drop 1).drop 1) := by
        apply Scanner.yields_drop
        · intro i hi
          obtain rfl : i = 0 := by omega
          exact refused_in_start hstart
        · rw [List.length_drop]
          unfold headSize at hhead'
          omega
      have hboth := hto.trans (hfirst.trans hsecond)
      rw [hs, List.drop_drop, List.drop_drop] at hboth
      rw [List.filter_cons_of_neg (by rw [hgood]; simp), if_neg (by simp)]
      exact hboth

variable (crc16 crc32) in
theorem uartFindData_looked (hp : p.Sound) (hlen : headSize ≤ p.len) :
    ∃ q scanned incomplete, uartFindData crc16 crc32 p = some (q, scanned, incomplete) ∧
      Looked crc16 crc32 p q scanned incomplete := by
  have hbuf := hp.buf
  have hfull := hp.len
  have hheld := hp.length_held
  unfold uartRxBufSize at hbuf hfull
  unfold headSize at hlen
  have hpositions : 0 + (p.len + 1 - uartStartSize) < p.buf.length := by
    unfold uartStartSize
    omega
  rcases findHead_spec p.buf hpositions with ⟨k, hk, -, hlast, hstart, hbefore⟩ | ⟨hnone, hbefore⟩
  · have hroom : k + uartStartSize ≤ p.len := by
      unfold uartStartSize at hlast ⊢
      omega
    have hpast : ∀ i, i < k → (uartScanner crc16 crc32).Refused (p.held.drop i) := fun i hi =>
      refused_at hp (by omega) (hbefore i (Nat.zero_le i) hi)
    have hat : (p.held.drop k).take uartStartSize = uartStart := by
      rw [← hstart, ← slice_take p.buf hroom]
      rfl
    by_cases hshort : p.len - k < headSize
    · refine ⟨p, k, true, ?_, looked_past hp (by omega) (by simp) (fun _ => ?_) hpast⟩
      · unfold uartFindData
        rw [hk, Option.bind_some]
        exact if_pos hshort
      · apply frames_of_short
        rw [List.length_drop, hheld]
        exact hshort
    · exact lookAtHead hp hk (by omega) hat hpast
  · refine ⟨p, p.len - uartStartSize, false, ?_, looked_past hp (by omega) ?_ (by simp) ?_⟩
    · have hmore : uartStartSize < p.len := by
        unfold uartStartSize
        omega
      unfold uartFindData
      rw [hnone, Option.bind_some, if_pos hmore]
    · unfold uartStartSize
      omega
    · intro i hi
      exact refused_at hp (by omega) (hbefore i (Nat.zero_le i) (by omega))

/-! ## One call -/

theorem consume_spec (hp : p.Sound) (h : scanned ≤ p.len) :
    ∃ q, consume p scanned = some q ∧ q.Sound ∧ q.len = p.len - scanned ∧
      q.held = p.held.drop scanned ∧ q.passed = p.passed := by
  unfold consume
  by_cases hsome : 0 < scanned
  · set rest := slice p.held scanned (p.len - scanned) with hrest
    have hread : readBytes p.buf scanned (p.len - scanned) = some rest :=
      readBytes_held hp (by omega)
    have hlength : rest.length = p.len - scanned := length_slice (by rw [hp.length_held]; omega)
    have hroom : 0 + rest.length ≤ p.buf.length := by
      rw [hlength, hp.buf]
      exact Nat.le_trans (by omega) hp.len
    have hdrop : rest = p.held.drop scanned := by
      apply List.take_of_length_le
      rw [List.length_drop, hp.length_held]
    rw [if_pos hsome, if_pos h, hread, Option.bind_some]
    refine ⟨_, rfl, ⟨?_, Nat.le_trans (Nat.sub_le _ _) hp.len⟩, rfl, ?_, rfl⟩
    · rw [length_blit hroom, hp.buf]
    · have hfront := slice_blit_same hroom
      rw [hlength] at hfront
      rw [← hdrop]
      exact hfront
  · obtain rfl : scanned = 0 := by omega
    exact ⟨p, if_neg hsome, hp, rfl, rfl, rfl⟩

/-- What a call does with the bytes `s` that are in the buffer when it looks: it goes on until
nothing more is to be found, and keeps an end of them. -/
structure Done (crc16 : List UInt8 → UInt16) (crc32 : List UInt8 → UInt32) (s : List UInt8)
    (p q : UartProc) : Prop where
  sound : q.Sound
  through : (uartScanner crc16 crc32).frames q.held = []
  keeps : q.held <:+ s
  found : ∃ new, q.passed = p.passed ++ new ∧
    (uartScanner crc16 crc32).Yields s (new.filter (crcRight crc32)) q.held

variable (crc16 crc32) in
theorem recvLoop_done (hp : p.Sound) (hfuel : p.len < fuel) :
    ∃ q, recvLoop crc16 crc32 fuel p = some q ∧ Done crc16 crc32 p.held p q := by
  induction fuel generalizing p with
  | zero => omega
  | succ fuel ih =>
    rw [recvLoop]
    by_cases hshort : p.len < headSize
    · refine ⟨p, if_pos hshort, hp, frames_of_short (by rwa [hp.length_held]), List.suffix_refl _,
        [], (List.append_nil _).symm, Scanner.Yields.refl _⟩
    · obtain ⟨q, scanned, incomplete, hlook, looked⟩ :=
        uartFindData_looked crc16 crc32 hp (Nat.not_lt.mp hshort)
      have hq : q.Sound := ⟨looked.buf ▸ hp.buf, looked.len ▸ hp.len⟩
      have hqheld : q.held = p.held := by rw [UartProc.held, looked.buf, looked.len]; rfl
      obtain ⟨r, hconsume, hr, hrlen, hrheld, hrpassed⟩ :=
        consume_spec hq (show scanned ≤ q.len by rw [looked.len]; exact looked.le)
      obtain ⟨new, hnew, hyields⟩ := looked.found
      rw [hqheld] at hrheld
      simp only [if_neg hshort, hlook, hconsume, Option.bind_some]
      cases incomplete with
      | true =>
        refine ⟨r, if_pos rfl, hr, ?_, ?_, new, ?_, ?_⟩
        · rw [hrheld]
          exact looked.waits rfl
        · rw [hrheld]
          exact List.drop_suffix _ _
        · rw [hrpassed, hnew]
        · rw [hrheld]
          exact hyields
      | false =>
        have hmoves := looked.moves rfl
        have hshrinks : r.len < fuel := by
          rw [hrlen, looked.len]
          unfold headSize at hshort
          omega
        obtain ⟨t, ht, done⟩ := ih hr hshrinks
        obtain ⟨new', hnew', hyields'⟩ := done.found
        have hkeeps := done.keeps
        rw [hrheld] at hkeeps hyields'
        refine ⟨t, (if_neg (by simp)).trans ht, done.sound, done.through,
          hkeeps.trans (List.drop_suffix _ _), new ++ new', ?_, ?_⟩
        · rw [hnew', hrpassed, hnew, List.append_assoc]
        · rw [List.filter_append]
          exact hyields.trans hyields'

/-- What is left of the buffer when the call puts its bytes in. -/
def UartProc.spared (p : UartProc) (data : List UInt8) : List UInt8 :=
  if uartRxBufSize < p.len + data.length then [] else p.held

variable (crc16 crc32) in
theorem uartRecvData_done (hp : p.Sound) (hdata : data.length ≤ uartRxBufSize)
    (hfuel : uartRxBufSize < fuel) :
    ∃ q, uartRecvData crc16 crc32 fuel p data = some q ∧
      Done crc16 crc32 (p.spared data ++ data) p q := by
  unfold uartRecvData
  set p' := if uartRxBufSize < p.len + data.length then { p with len := 0 } else p with hp'
  have hbuf : p'.buf = p.buf := by
    rw [hp']
    split <;> rfl
  have hpassed : p'.passed = p.passed := by
    rw [hp']
    split <;> rfl
  have hfits : p'.len + data.length ≤ uartRxBufSize := by
    rw [hp']
    split
    · simpa using hdata
    · omega
  have hspared : p'.held = p.spared data := by
    unfold UartProc.spared
    rw [hp']
    split
    · exact List.take_zero
    · rfl
  have hroom : p'.len + data.length ≤ p'.buf.length := by rwa [hbuf, hp.buf]
  have hplaced : (blit p'.buf p'.len data).take (p'.len + data.length) = p'.held ++ data := by
    have hlength : (p'.buf.take p'.len ++ data).length = p'.len + data.length := by
      rw [List.length_append, List.length_take]
      omega
    unfold blit
    exact List.take_left' hlength
  simp only [if_pos hroom]
  set filled : UartProc :=
    { p' with buf := blit p'.buf p'.len data, len := p'.len + data.length } with hfilled
  have hsound : filled.Sound := ⟨(length_blit hroom).trans (hbuf ▸ hp.buf), hfits⟩
  have hheld : filled.held = p.spared data ++ data := hplaced.trans (by rw [hspared])
  obtain ⟨q, hq, done⟩ := recvLoop_done crc16 crc32 hsound (Nat.lt_of_le_of_lt hfits hfuel)
  rw [hheld] at done
  obtain ⟨new, hnew, hyields⟩ := done.found
  refine ⟨q, hq, done.sound, done.through, done.keeps, new, ?_, hyields⟩
  rw [hnew]
  exact congrArg (· ++ new) hpassed

/-! ## The frames that are sent are frames -/

section
variable (crc16 crc32) (type sn : Nat) (payload : List UInt8)

/-- A header up to its CRC. -/
def headFields : List UInt8 :=
  uartStart ++ toLE 2 sn ++ toLE 2 (type <<< 12 ||| payload.length)

/-- A header. -/
def headBytes : List UInt8 :=
  headFields type sn payload ++ toLE 2 (crc16 (headFields type sn payload)).toNat

theorem length_headFields : (headFields type sn payload).length = 6 := by
  simp [headFields, uartStart]

theorem length_headBytes : (headBytes crc16 type sn payload).length = headSize := by
  simp [headBytes, length_headFields, headSize]

/-- What the last CRC is of. -/
def bodyBytes : List UInt8 := headBytes crc16 type sn payload ++ payload

theorem length_bodyBytes :
    (bodyBytes crc16 type sn payload).length = headSize + payload.length := by
  rw [bodyBytes, List.length_append, length_headBytes]

variable {payload} in
theorem buildFrame_eq {memory : List UInt8}
    (room : memory.length = headSize + payload.length + crcSize) :
    buildFrame crc16 crc32 type sn memory payload = bodyBytes crc16 type sn payload ++
      toLE crcSize (crc32 (bodyBytes crc16 type sn payload)).toNat := by
  have hsix := length_headFields type sn payload
  have heightLen := length_headBytes crc16 type sn payload
  have hbodyLen := length_bodyBytes crc16 type sn payload
  unfold buildFrame
  dsimp only
  set m₁ := blit memory 0 uartStart
  set m₂ := blit m₁ uartStartSize (toLE 2 sn)
  set m₃ := blit m₂ (uartStartSize + 2) (toLE 2 (type <<< 12 ||| payload.length))
  have h₁ : uartStart <+: m₁ := prefix_blit List.nil_prefix rfl _
  have h₂ : uartStart ++ toLE 2 sn <+: m₂ := prefix_blit h₁ rfl _
  have h₃ : headFields type sn payload <+: m₃ :=
    prefix_blit h₂ (by rw [List.length_append, length_toLE]; rfl) _
  have htake₃ : m₃.take (headSize - 2) = headFields type sn payload := by
    have htake := List.prefix_iff_eq_take.mp h₃
    rw [hsix] at htake
    exact htake.symm
  rw [htake₃]
  set c := (crc16 (headFields type sn payload)).toNat with hc
  set m₄ := blit m₃ (headSize - 2) (toLE 4 c)
  set m₅ := blit m₄ headSize payload
  -- the upper half of the four bytes lies behind the header
  have h₄ : headBytes crc16 type sn payload <+: m₄ := by
    have hfour : toLE 4 c = toLE 2 c ++ toLE 2 (c / 256 ^ 2) := toLE_append 2 2 c
    have hall : headFields type sn payload ++ toLE 4 c <+: m₄ := prefix_blit h₃ hsix _
    rw [hfour, ← List.append_assoc] at hall
    exact (List.prefix_append _ _).trans hall
  have h₅ : bodyBytes crc16 type sn payload <+: m₅ := prefix_blit h₄ heightLen payload
  have htake₅ : m₅.take (headSize + payload.length) = bodyBytes crc16 type sn payload := by
    rw [← hbodyLen]
    exact (List.prefix_iff_eq_take.mp h₅).symm
  rw [htake₅]
  set d := (crc32 (bodyBytes crc16 type sn payload)).toNat
  have h₆ := prefix_blit h₅ hbodyLen (toLE crcSize d)
  refine (h₆.eq_of_length ?_).symm
  unfold headSize crcSize at room
  have hl₁ : m₁.length = memory.length := length_blit (by simp [uartStart]; omega)
  have hl₂ : m₂.length = memory.length :=
    (length_blit (by rw [length_toLE, hl₁]; unfold uartStartSize; omega)).trans hl₁
  have hl₃ : m₃.length = memory.length :=
    (length_blit (by rw [length_toLE, hl₂]; unfold uartStartSize; omega)).trans hl₂
  have hl₄ : m₄.length = memory.length :=
    (length_blit (by rw [length_toLE, hl₃]; unfold headSize; omega)).trans hl₃
  have hl₅ : m₅.length = memory.length :=
    (length_blit (by rw [hl₄]; unfold headSize; omega)).trans hl₄
  rw [length_blit (by rw [length_toLE, hl₅]; unfold headSize crcSize; omega), hl₅,
    List.length_append, hbodyLen, length_toLE, room]
  rfl

/-- A frame with a length that fits its field is one that the receiver takes. -/
theorem isFrame_buildFrame {memory : List UInt8} (fits : payload.length ≤ uartRxBufSize)
    (room : memory.length = headSize + payload.length + crcSize) :
    (uartScanner crc16 crc32).IsFrame (buildFrame crc16 crc32 type sn memory payload) := by
  have hsix := length_headFields type sn payload
  have heightLen := length_headBytes crc16 type sn payload
  have hbodyLen := length_bodyBytes crc16 type sn payload
  rw [buildFrame_eq crc16 crc32 type sn room]
  set head := headBytes crc16 type sn payload with hhead
  set body := bodyBytes crc16 type sn payload with hbody
  set crc := toLE crcSize (crc32 body).toNat with hcrc
  have hcrcLen : crc.length = crcSize := length_toLE _ _
  have hlen : (body ++ crc).length = headSize + payload.length + crcSize := by
    rw [List.length_append, hbodyLen, hcrcLen]
  have hclaimHead : headClaim crc16 head = some (headSize + payload.length + crcSize) := by
    have hfield : dataLen head = payload.length := by
      unfold uartRxBufSize at fits
      have hslice : slice head 4 2 = toLE 2 (type <<< 12 ||| payload.length) := by
        have h := slice_middle (uartStart ++ toLE 2 sn)
          (toLE 2 (type <<< 12 ||| payload.length))
          (toLE 2 (crc16 (headFields type sn payload)).toNat)
        simp only [List.length_append, length_toLE] at h
        rw [hhead, headBytes, headFields, List.append_assoc]
        exact h
      have hlow : payload.length < 2 ^ 12 := by omega
      rw [dataLen, hslice, ofLE_toLE, ← Nat.shiftLeft_add_eq_or_of_lt hlow, Nat.shiftLeft_eq]
      omega
    have hclaims : headSize ≤ head.length ∧ head.take uartStartSize = uartStart ∧
        (crc16 (head.take 6)).toNat = ofLE (slice head 6 2) ∧ dataLen head ≤ uartRxBufSize := by
      refine ⟨heightLen.ge, ?_, ?_, hfield ▸ fits⟩
      · rw [hhead, headBytes, headFields, List.append_assoc, List.append_assoc]
        exact List.take_left' rfl
      · have hslice : slice head 6 2 = toLE 2 (crc16 (headFields type sn payload)).toNat := by
          have h := slice_middle (headFields type sn payload)
            (toLE 2 (crc16 (headFields type sn payload)).toNat) []
          rw [hsix, length_toLE, List.append_nil] at h
          exact h
        rw [hslice, ofLE_toLE_of_lt (UInt16.toNat_lt _), hhead, headBytes, List.take_left' hsix]
    unfold headClaim
    rw [if_pos hclaims, hfield]
  constructor
  · have hbytes : body ++ crc = head ++ (payload ++ crc) := by
      rw [hbody, bodyBytes, List.append_assoc]
    rw [hlen, hbytes]
    exact (uartScanner crc16 crc32).claim_append _ hclaimHead
  · have htake : (body ++ crc).length - crcSize = body.length := by
      rw [hlen, hbodyLen]
      omega
    have hright : crcRight crc32 (body ++ crc) = true := by
      unfold crcRight
      rw [htake, List.drop_left, List.take_left]
      exact decide_eq_true rfl
    exact hright

variable {crc16 crc32} in
/-- Every frame that is sent is one that the receiver takes. -/
theorem isFrame_of_sent {f : List UInt8} (h : Sent crc16 crc32 f) :
    (uartScanner crc16 crc32).IsFrame f := by
  cases h with
  | data sn memory payload some fits room =>
    apply isFrame_buildFrame crc16 crc32 uartData sn payload _ room
    unfold uartRxBufSize
    omega
  | ack sn ackData room =>
    exact isFrame_buildFrame crc16 crc32 uartAck sn [] (Nat.zero_le _) room
end

/-! ## Whole streams -/

/-- The receiver, and how many bytes of the stream have arrived. -/
structure Link where
  proc : UartProc
  arrived : Nat

section
variable (crc16 crc32)

/-- The bytes that `uart_data_process` has been given and has found right. -/
def accepted (p : UartProc) : List (List UInt8) := p.passed.filter (crcRight crc32)

/-- One call of `uart_recv_data`. -/
def receive (fuel : Nat) (l : Link) (data : List UInt8) : Option Link :=
  (uartRecvData crc16 crc32 fuel l.proc data).map fun p => ⟨p, l.arrived + data.length⟩

/-- Before the first call. -/
def initial (rx : Receiver) : Link := ⟨⟨List.replicate uartRxBufSize 0, 0, rx, []⟩, 0⟩

/-- The call does not overflow the buffer, or what it discards then is all noise. -/
def Spares (pieces : List (Scanner.Piece UInt8)) (l : Link) (data : List UInt8) (_ : Link) :
    Prop :=
  l.proc.len + data.length ≤ uartRxBufSize ∨
    ∀ i, l.arrived - l.proc.len ≤ i → i < l.arrived →
      (Scanner.marksOf pieces)[i]? = some false

/-- The receiver on its way through a stream: `future` is to come behind what is in the
buffer, and the frames are those accepted and those still to be found. -/
structure Tracks (pieces : List (Scanner.Piece UInt8)) (l : Link) (future : List UInt8) :
    Prop where
  sound : l.proc.Sound
  through : (uartScanner crc16 crc32).frames l.proc.held = []
  stream : ∃ before, Scanner.cellsOf pieces = before ++ (l.proc.held ++ future) ∧
    before.length + l.proc.len = l.arrived
  account : accepted crc32 l.proc ++ (uartScanner crc16 crc32).frames (l.proc.held ++ future) =
    Scanner.framesIn pieces
end

variable {pieces : List (Scanner.Piece UInt8)} {l l' : Link} {future : List UInt8}
variable {chunks : List (List UInt8)}

theorem initial_sound (rx : Receiver) : (initial rx).proc.Sound :=
  ⟨List.length_replicate, Nat.zero_le _⟩

theorem Tracks.initial (rx : Receiver) (quiet : (uartScanner crc16 crc32).Quiet pieces)
    (sent : ∀ f ∈ Scanner.framesIn pieces, Sent crc16 crc32 f) :
    Tracks crc16 crc32 pieces (initial rx) (Scanner.cellsOf pieces) where
  sound := initial_sound rx
  through := rfl
  stream := ⟨[], rfl, rfl⟩
  account := Scanner.frames_cellsOf quiet fun f hf => isFrame_of_sent (sent f hf)

/-- What is discarded is nothing to the scanner. -/
theorem Tracks.frames_spared (tracks : Tracks crc16 crc32 pieces l (data ++ future))
    (quiet : (uartScanner crc16 crc32).Quiet pieces)
    (sent : ∀ f ∈ Scanner.framesIn pieces, Sent crc16 crc32 f)
    (spares : Spares pieces l data l') :
    (uartScanner crc16 crc32).frames (l.proc.held ++ (data ++ future)) =
      (uartScanner crc16 crc32).frames (l.proc.spared data ++ (data ++ future)) := by
  unfold UartProc.spared
  split
  · rename_i hover
    rcases spares with hfits | hnoise
    · omega
    · obtain ⟨before, hcells, harrived⟩ := tracks.stream
      have hheld := tracks.sound.length_held
      have hdrop := Scanner.frames_drop_noise quiet (fun f hf => isFrame_of_sent (sent f hf))
        (show before.length ≤ before.length + l.proc.held.length by omega)
        fun i hlo hhi => hnoise i (by omega) (by omega)
      rw [hcells, List.drop_left, ← List.drop_drop, List.drop_left, List.drop_left] at hdrop
      rw [List.nil_append, hdrop]
  · rfl

theorem Tracks.step (tracks : Tracks crc16 crc32 pieces l (data ++ future))
    (hdata : data.length ≤ uartRxBufSize) (hfuel : uartRxBufSize < fuel)
    (quiet : (uartScanner crc16 crc32).Quiet pieces)
    (sent : ∀ f ∈ Scanner.framesIn pieces, Sent crc16 crc32 f)
    (hstep : receive crc16 crc32 fuel l data = some l') (spares : Spares pieces l data l') :
    Tracks crc16 crc32 pieces l' future := by
  obtain ⟨q, hq, done⟩ := uartRecvData_done crc16 crc32 tracks.sound hdata hfuel
  rw [receive, hq, Option.map_some, Option.some.injEq] at hstep
  subst hstep
  obtain ⟨new, hnew, hyields⟩ := done.found
  obtain ⟨taken, hkeeps⟩ := done.keeps
  have haccount := tracks.account
  rw [tracks.frames_spared quiet sent spares, ← List.append_assoc (l.proc.spared data),
    hyields future] at haccount
  refine ⟨done.sound, done.through, ?_, ?_⟩
  · obtain ⟨before, hcells, harrived⟩ := tracks.stream
    obtain ⟨dropped, hdropped⟩ : ∃ dropped, l.proc.held = dropped ++ l.proc.spared data := by
      unfold UartProc.spared
      split
      · exact ⟨l.proc.held, (List.append_nil _).symm⟩
      · exact ⟨[], rfl⟩
    refine ⟨before ++ dropped ++ taken, ?_, ?_⟩
    · have hmiddle : taken ++ (q.held ++ future) = l.proc.spared data ++ (data ++ future) := by
        rw [← List.append_assoc, hkeeps, List.append_assoc]
      rw [hcells, hdropped]
      simp only [List.append_assoc]
      rw [hmiddle]
    · have hlength := congrArg List.length hkeeps
      have hlength' := congrArg List.length hdropped
      simp only [List.length_append, done.sound.length_held, tracks.sound.length_held] at *
      omega
  · unfold accepted at haccount ⊢
    rw [hnew, List.filter_append, List.append_assoc]
    exact haccount

variable (crc16 crc32) in
/-- A call is carried out whatever the bytes are. -/
theorem receive_isSome (hl : l.proc.Sound) (hdata : data.length ≤ uartRxBufSize)
    (hfuel : uartRxBufSize < fuel) :
    ∃ l', receive crc16 crc32 fuel l data = some l' ∧ l'.proc.Sound ∧
      l'.proc.len ≤ l.proc.len + data.length := by
  obtain ⟨q, hq, done⟩ := uartRecvData_done crc16 crc32 hl hdata hfuel
  refine ⟨⟨q, l.arrived + data.length⟩, by rw [receive, hq, Option.map_some], done.sound, ?_⟩
  have hlength := done.keeps.length_le
  rw [done.sound.length_held, List.length_append] at hlength
  have hspared : (l.proc.spared data).length ≤ l.proc.len := by
    unfold UartProc.spared
    split
    · exact Nat.zero_le _
    · exact hl.length_held.le
  exact Nat.le_trans hlength (by omega)

theorem run_isSome (hl : l.proc.Sound) (hfuel : uartRxBufSize < fuel)
    (hchunks : ∀ data ∈ chunks, data.length ≤ uartRxBufSize) :
    (Runs.run (receive crc16 crc32 fuel) l chunks).isSome := by
  induction chunks generalizing l with
  | nil => rfl
  | cons data chunks ih =>
    obtain ⟨l', hl', hsound, -⟩ :=
      receive_isSome crc16 crc32 hl (hchunks data List.mem_cons_self) hfuel
    rw [Runs.run, hl', Option.bind_some]
    exact ih hsound fun data hdata => hchunks data (List.mem_cons_of_mem _ hdata)

theorem Tracks.run (tracks : Tracks crc16 crc32 pieces l chunks.flatten)
    (hchunks : ∀ data ∈ chunks, data.length ≤ uartRxBufSize) (hfuel : uartRxBufSize < fuel)
    (quiet : (uartScanner crc16 crc32).Quiet pieces)
    (sent : ∀ f ∈ Scanner.framesIn pieces, Sent crc16 crc32 f)
    (spares : Runs.Along (receive crc16 crc32 fuel) (Spares pieces) l chunks) :
    Runs.Along (receive crc16 crc32 fuel)
        (fun _ _ l => accepted crc32 l.proc <+: Scanner.framesIn pieces) l chunks ∧
      ∀ l', Runs.run (receive crc16 crc32 fuel) l chunks = some l' →
        accepted crc32 l'.proc = Scanner.framesIn pieces := by
  induction chunks generalizing l with
  | nil =>
    refine ⟨Runs.along_nil, fun l' hl' => ?_⟩
    cases hl'
    have haccount := tracks.account
    rw [List.flatten_nil, List.append_nil, tracks.through, List.append_nil] at haccount
    exact haccount
  | cons data chunks ih =>
    have hstep : ∀ l', receive crc16 crc32 fuel l data = some l' →
        Tracks crc16 crc32 pieces l' chunks.flatten := fun l' hl' =>
      tracks.step (hchunks data List.mem_cons_self) hfuel quiet sent hl' (spares l' hl').1
    have hrest : ∀ data ∈ chunks, data.length ≤ uartRxBufSize := fun data hdata =>
      hchunks data (List.mem_cons_of_mem _ hdata)
    constructor
    · intro l' hl'
      exact ⟨⟨_, (hstep l' hl').account⟩, (ih (hstep l' hl') hrest (spares l' hl').2).1⟩
    · intro l' hrun
      rw [Runs.run] at hrun
      obtain ⟨next, hnext, hrun⟩ := Option.bind_eq_some_iff.mp hrun
      exact (ih (hstep next hnext) hrest (spares next hnext).2).2 l' hrun

variable (crc16 crc32) in
/-- Whatever the bytes are and however they are cut, every call ends and stays in the buffer.
Where the frames that are sent stand among noise that takes nothing and keeps no later frame
waiting, and no overflow discards bytes of a frame, each frame is accepted once, in order. -/
theorem uart_recv_data_right (rx : Receiver) (hfuel : uartRxBufSize < fuel)
    (hchunks : ∀ data ∈ chunks, data.length ≤ uartRxBufSize) :
    (Runs.run (receive crc16 crc32 fuel) (initial rx) chunks).isSome ∧
      ∀ pieces, Scanner.cellsOf pieces = chunks.flatten →
        (∀ f ∈ Scanner.framesIn pieces, Sent crc16 crc32 f) →
        (uartScanner crc16 crc32).Quiet pieces →
        Runs.Along (receive crc16 crc32 fuel) (Spares pieces) (initial rx) chunks →
        Runs.Along (receive crc16 crc32 fuel)
            (fun _ _ l => accepted crc32 l.proc <+: Scanner.framesIn pieces)
            (initial rx) chunks ∧
          ∀ l, Runs.run (receive crc16 crc32 fuel) (initial rx) chunks = some l →
            accepted crc32 l.proc = Scanner.framesIn pieces := by
  refine ⟨run_isSome (initial_sound rx) hfuel hchunks, ?_⟩
  intro pieces hpieces sent quiet spares
  have tracks : Tracks crc16 crc32 pieces (initial rx) (Scanner.cellsOf pieces) :=
    Tracks.initial rx quiet sent
  rw [hpieces] at tracks
  exact tracks.run hchunks hfuel quiet sent spares

/-- The CRCs of `bflb_common.c`, as the library's own are. -/
def softCrc16 (data : List UInt8) : UInt16 := UInt16.ofNat (bflbSoftCrc16 data)

def softCrc32 (data : List UInt8) : UInt32 := UInt32.ofNat (bflbSoftCrc32 data)

/-- An acknowledgement behind one byte of noise, cut in two. -/
def cutAck : List UInt8 := hciUartAckTask softCrc16 softCrc32 7 (List.replicate 12 0)

def receiver : Receiver := ⟨false, 0, 0, 0, true, false, 0, []⟩

theorem uart_recv_data_right_cut :
    ∃ l, Runs.run (receive softCrc16 softCrc32 513) (initial receiver)
        [0 :: cutAck.take 5, cutAck.drop 5] = some l ∧ accepted softCrc32 l.proc = [cutAck] := by
  have hchunks : ∀ data ∈ [0 :: cutAck.take 5, cutAck.drop 5], data.length ≤ uartRxBufSize := by
    decide +kernel
  have hfuel : uartRxBufSize < 513 := by decide
  obtain ⟨hsome, hright⟩ := uart_recv_data_right softCrc16 softCrc32 receiver hfuel hchunks
  obtain ⟨l, hl⟩ := Option.isSome_iff_exists.mp hsome
  have hsent : Sent softCrc16 softCrc32 cutAck := .ack 7 (List.replicate 12 0) rfl
  refine ⟨l, hl, (hright [.noise 0, .frame cutAck] ?_ ?_ ?_ ?_).2 l hl⟩
  · decide +kernel
  · intro f hf
    obtain rfl := List.mem_singleton.mp hf
    exact hsent
  · refine ⟨fun n hn => ?_, trivial⟩
    cases hn
  · intro l₁ hl₁
    obtain ⟨l', hl', -, hlen⟩ :=
      receive_isSome softCrc16 softCrc32 (initial_sound receiver) (hchunks _ List.mem_cons_self)
        hfuel
    cases hl₁.symm.trans hl'
    refine ⟨.inl (by decide +kernel), fun l₂ _ => ⟨.inl ?_, Runs.along_nil⟩⟩
    have hfirst : (initial receiver).proc.len + (0 :: cutAck.take 5).length = 6 := by
      decide +kernel
    have hsecond : (cutAck.drop 5).length = 7 := by decide +kernel
    unfold uartRxBufSize
    omega

theorem claim_zeros (b : UInt8) (n : Nat) :
    (uartScanner crc16 crc32).claim (b :: List.replicate n 0) = none := by
  apply if_neg
  rintro ⟨hlen, hstart, -⟩
  cases n with
  | zero => exact absurd hlen (show ¬ headSize ≤ 1 by decide)
  | succ n =>
    have hsecond := congrArg (fun bytes => bytes[1]?) hstart
    simp [uartStart, uartStartSize, List.replicate_succ] at hsecond

theorem frames_zeros (b : UInt8) (n : Nat) :
    (uartScanner crc16 crc32).frames (b :: List.replicate n 0) = [] := by
  induction n generalizing b with
  | zero => exact frames_of_short (show 1 < headSize by decide)
  | succ n ih =>
    rw [Scanner.frames_unclaimed (claim_zeros b (n + 1)), List.replicate_succ]
    exact ih 0

/-- Noise of zeros. -/
def zeros (n : Nat) : List (Scanner.Piece UInt8) := List.replicate n (.noise 0)

theorem cellsOf_zeros (n : Nat) : Scanner.cellsOf (zeros n) = List.replicate n 0 := by
  induction n with
  | zero => rfl
  | succ n ih => exact congrArg (0 :: ·) ih

theorem framesIn_zeros (n : Nat) : Scanner.framesIn (zeros n) = [] := by
  induction n with
  | zero => rfl
  | succ n ih => exact ih

theorem headless_zeros (n : Nat) : (uartScanner crc16 crc32).Headless (zeros n) := by
  induction n with
  | zero => trivial
  | succ n ih =>
    refine ⟨?_, ih⟩
    rw [← zeros, cellsOf_zeros]
    exact claim_zeros 0 n

/-- Of an acknowledgement that ends in the next call only its last byte is left when that
call overflows the buffer. -/
theorem ack_lost_in_overflow :
    ¬ ∃ crc16 crc32, ∀ rx fuel pieces chunks, uartRxBufSize < fuel →
      (∀ data ∈ chunks, data.length ≤ uartRxBufSize) →
      Scanner.cellsOf pieces = chunks.flatten →
      (∀ f ∈ Scanner.framesIn pieces, Sent crc16 crc32 f) →
      (uartScanner crc16 crc32).Headless pieces →
      ∀ l, Runs.run (receive crc16 crc32 fuel) (initial rx) chunks = some l →
        accepted crc32 l.proc = Scanner.framesIn pieces := by
  rintro ⟨crc16, crc32, hclaimed⟩
  set ack := hciUartAckTask crc16 crc32 0 (List.replicate 12 0) with hack
  have hsent : Sent crc16 crc32 ack := .ack 0 (List.replicate 12 0) rfl
  have hframe := isFrame_of_sent hsent
  have hlen : ack.length = 12 := by
    rw [hack, hciUartAckTask, buildFrame_eq crc16 crc32 uartAck 0 rfl, List.length_append,
      length_bodyBytes, length_toLE]
    rfl
  have hfirstLen : (ack.take 11).length = 11 := by rw [List.length_take, hlen]; rfl
  have hsplit : ack.take 11 ++ ack.drop 11 = ack := List.take_append_drop 11 ack
  obtain ⟨b, hb⟩ : ∃ b, ack.drop 11 = [b] := by
    apply List.length_eq_one_iff.mp
    rw [List.length_drop, hlen]
  have hsecondLen : (ack.drop 11 ++ List.replicate 511 0).length = uartRxBufSize := by
    rw [hb, List.length_append, List.length_replicate]
    rfl
  have hfuel : uartRxBufSize < 513 := by decide
  have hfirst : (ack.take 11).length ≤ uartRxBufSize := by
    rw [hfirstLen]
    decide
  -- the first call waits for the last byte
  obtain ⟨q, hq, done⟩ := uartRecvData_done crc16 crc32 (initial_sound receiver) hfirst hfuel
  obtain ⟨new, hnew, hyields⟩ := done.found
  have hspared : (initial receiver).proc.spared (ack.take 11) = [] := by
    unfold UartProc.spared
    split <;> rfl
  rw [hspared, List.nil_append] at hyields
  have hnothing : new.filter (crcRight crc32) = [] := by
    have hclaim := hframe.1
    rw [← hsplit] at hclaim
    have hhead : headClaim crc16 (ack.take 11 ++ ack.drop 11) = headClaim crc16 (ack.take 11) :=
      headClaim_append (by rw [hfirstLen]; decide) _
    have hshort := Scanner.frames_short (S := uartScanner crc16 crc32) (hhead.symm.trans hclaim)
      (by rw [hsplit, hlen, hfirstLen]; decide)
    have hyield := hyields []
    rw [List.append_nil, hshort] at hyield
    exact (List.append_eq_nil_iff.mp hyield.symm).1
  have hkept : 0 < q.len := by
    rw [Nat.pos_iff_ne_zero]
    intro hempty
    have hheld : q.held = [] := List.length_eq_zero_iff.mp (by rw [done.sound.length_held, hempty])
    have hyield := hyields (ack.drop 11)
    have hall := Scanner.frames_isFrame hframe []
    rw [List.append_nil] at hall
    rw [hsplit, hall, hnothing, hheld, hb] at hyield
    have hone : (uartScanner crc16 crc32).frames [b] = [] := frames_zeros b 0
    rw [List.nil_append, List.nil_append, hone] at hyield
    cases hyield
  -- the second one discards what was kept
  obtain ⟨r, hr, done'⟩ := uartRecvData_done crc16 crc32 done.sound hsecondLen.le hfuel
  obtain ⟨new', hnew', hyields'⟩ := done'.found
  have hspared' : q.spared (ack.drop 11 ++ List.replicate 511 0) = [] := by
    apply if_pos
    rw [hsecondLen]
    omega
  have hnothing' : new'.filter (crcRight crc32) = [] := by
    have hyield := hyields' []
    rw [hspared', hb, List.append_nil, List.nil_append] at hyield
    have hzeros : (uartScanner crc16 crc32).frames ([b] ++ List.replicate 511 0) = [] :=
      frames_zeros b 511
    rw [hzeros] at hyield
    exact (List.append_eq_nil_iff.mp hyield.symm).1
  have haccepted : accepted crc32 r = [] := by
    unfold accepted
    rw [hnew', hnew, List.filter_append, List.filter_append, hnothing, hnothing']
    rfl
  have hrun : Runs.run (receive crc16 crc32 513) (initial receiver)
      [ack.take 11, ack.drop 11 ++ List.replicate 511 0] =
        some ⟨r, (initial receiver).arrived + (ack.take 11).length +
          (ack.drop 11 ++ List.replicate 511 0).length⟩ := by
    simp only [Runs.run, receive, hq, hr, Option.map_some, Option.bind_some]
  have hframes : Scanner.framesIn (.frame ack :: zeros 511) = [ack] :=
    congrArg (ack :: ·) (framesIn_zeros 511)
  have hcells : Scanner.cellsOf (.frame ack :: zeros 511) =
      [ack.take 11, ack.drop 11 ++ List.replicate 511 0].flatten := by
    rw [List.flatten_cons, List.flatten_cons, List.flatten_nil, List.append_nil,
      ← List.append_assoc, hsplit]
    exact congrArg (ack ++ ·) (cellsOf_zeros 511)
  have hchunks : ∀ data ∈ [ack.take 11, ack.drop 11 ++ List.replicate 511 0],
      data.length ≤ uartRxBufSize := by
    intro data hdata
    rcases List.mem_pair.mp hdata with rfl | rfl
    · exact hfirst
    · exact hsecondLen.le
  have hall : ∀ f ∈ Scanner.framesIn (.frame ack :: zeros 511), Sent crc16 crc32 f := by
    intro f hf
    rw [hframes] at hf
    obtain rfl := List.mem_singleton.mp hf
    exact hsent
  have hright := hclaimed receiver 513 _ _ hfuel hchunks hcells hall (headless_zeros 511) _ hrun
  rw [haccepted, hframes] at hright
  cases hright

end BouffaloSdk.HciUartLp
