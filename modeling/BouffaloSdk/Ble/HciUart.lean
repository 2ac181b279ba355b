import BouffaloSdk.Kit.Slice
import Mathlib.Algebra.Order.Ring.Nat
import Mathlib.Logic.Function.Iterate

/-!
# The reader of HCI packets

`UartReadThread` of `bl_hci_tl/bl_hci_uart.c` and of `bl_hci_tl/hci_uart_lp.c`, which have one
text: a byte for the type, a header, then the payload into a buffer. Each pass of its loop
takes what the stream buffer gives.
-/

namespace BouffaloSdk.HciUart
open Kit

def indAclData : UInt8 := 0x02
def indEvent : UInt8 := 0x04

/-- `uart_recv_state_t`, without the `UART_GET_SEQ` that nothing sets. -/
inductive RecvState
  | getType
  | getHeader
  | getBuffer
  | getData
  deriving DecidableEq

/-- Where `ptr` points: the type, the header or the buffer, and how far into it. -/
inductive Ptr
  | buffType (off : Nat)
  | header (off : Nat)
  | data (off : Nat)

/-- The buffer's memory and its `len`. -/
structure NetBuf where
  data : List UInt8
  len : Nat

/-- The receiving half of `UART_Context`. -/
structure UartContext where
  maxReadLen : Nat
  buffType : UInt8
  ptr : Ptr
  header : List UInt8
  headerLen : Nat
  rxBuf : NetBuf
  rxState : RecvState

/-- The loop goes on, has been left, or has written where it must not. -/
inductive Status
  | running
  | left
  | corrupted
  deriving DecidableEq

/-- The thread with the bytes that are still to come, what it has handed over, and the
numbers of the calls it has made. -/
structure Reader where
  ctx : UartContext
  bytesRead : Nat
  stream : List UInt8
  received : Nat
  allocated : Nat
  handed : List (List UInt8)
  status : Status

/-- What the surroundings decide: the bytes there are for the `k`th receive, less one, and
the memory that the `k`th allocation gives. -/
structure Surroundings where
  available : Nat → Nat
  alloc : Nat → Option (List UInt8)

/-- A write through `ptr` that moves it on, or nothing where it leaves the object. -/
def UartContext.put (c : UartContext) (bytes : List UInt8) : Option UartContext :=
  match c.ptr with
  | .buffType off =>
    if off + bytes.length ≤ 1 then
      some { c with buffType := bytes.headD c.buffType, ptr := .buffType (off + bytes.length) }
    else none
  | .header off =>
    if off + bytes.length ≤ c.header.length then
      some { c with header := blit c.header off bytes, ptr := .header (off + bytes.length) }
    else none
  | .data off =>
    if off + bytes.length ≤ c.rxBuf.data.length then
      some { c with rxBuf := ⟨blit c.rxBuf.data off bytes, c.rxBuf.len⟩
                    ptr := .data (off + bytes.length) }
    else none

/-- Set up for the next type. -/
def UartContext.awaitType (c : UartContext) : UartContext :=
  { c with buffType := 0, ptr := .buffType 0, maxReadLen := 1, rxState := .getType }

/-- `LEtoHost16`. -/
def lEtoHost16 (bytes : List UInt8) : Nat := (bytes.getD 0 0).toNat + 2 ^ 8 * (bytes.getD 1 0).toNat

/-- A buffer of `len` bytes is asked for, and `maxReadLen` of them are to come. -/
def allocBuf (env : Surroundings) (r : Reader) (payload : Nat) : Reader :=
  let asked := { r with allocated := r.allocated + 1 }
  match env.alloc r.allocated with
  | some memory =>
    { asked with ctx := { r.ctx with maxReadLen := payload, ptr := .data 0
                                     rxBuf := ⟨memory, (payload + r.ctx.headerLen) % 2 ^ 16⟩ } }
  | none => { asked with ctx := r.ctx.awaitType }

/-- The case of `UART_GET_BUFFER`, which the one of `UART_GET_HEADER` falls into. -/
def getBuffer (env : Surroundings) (r : Reader) : Reader :=
  let r :=
    if r.ctx.buffType = indAclData then allocBuf env r (lEtoHost16 (r.ctx.header.drop 2))
    else if r.ctx.buffType = indEvent then allocBuf env r (r.ctx.header.getD 1 0).toNat
    else { r with ctx := r.ctx.awaitType }
  match r.ctx.put (r.ctx.header.take r.ctx.headerLen) with
  | none => { r with status := .corrupted }
  | some c => { r with ctx := { c with rxState := .getData }, bytesRead := 1 }

/-- The `switch`. -/
def dispatch (env : Surroundings) (r : Reader) : Reader :=
  match r.ctx.rxState with
  | .getType =>
    if r.ctx.buffType = indEvent then
      { r with ctx := { r.ctx with headerLen := 2, ptr := .header 0, maxReadLen := 2
                                   rxState := .getHeader } }
    else if r.ctx.buffType = indAclData then
      { r with ctx := { r.ctx with headerLen := 4, ptr := .header 0, maxReadLen := 4
                                   rxState := .getHeader } }
    else { r with ctx := r.ctx.awaitType }
  | .getHeader => getBuffer env { r with ctx := { r.ctx with rxState := .getBuffer } }
  | .getBuffer => getBuffer env r
  | .getData =>
    let handed :=
      if r.ctx.buffType = indEvent ∨ r.ctx.buffType = indAclData then
        r.handed ++ [r.ctx.rxBuf.data.take r.ctx.rxBuf.len]
      else r.handed
    { r with handed, ctx := r.ctx.awaitType }

/-- `xStreamBufferReceive` and what is done with its result. -/
def receive (env : Surroundings) (r : Reader) : Reader :=
  let n := min r.ctx.maxReadLen (min r.stream.length (env.available r.received + 1))
  let r' := { r with stream := r.stream.drop n, received := r.received + 1, bytesRead := n }
  match r.ctx.put (r.stream.take n) with
  | none => { r' with status := .corrupted }
  | some c =>
    if n ≠ c.maxReadLen then { r' with ctx := { c with maxReadLen := c.maxReadLen - n } }
    else dispatch env { r' with ctx := c }

/-- One pass of the loop. Without a byte the thread waits in its receive. -/
def pass (env : Surroundings) (r : Reader) : Reader :=
  if r.status = .running ∧ (r.ctx.rxState = .getBuffer ∨ r.stream ≠ []) then
    let r := if r.ctx.rxState ≠ .getBuffer then receive env r else dispatch env r
    if r.status = .running ∧ r.bytesRead = 0 then { r with status := .left } else r
  else r

/-- The thread as `hci_uart_open` starts it. -/
def hciUartOpen (c : UartContext) (stream : List UInt8) : Reader :=
  { ctx := { c with maxReadLen := 1, buffType := 0, ptr := .buffType 0, rxState := .getType }
    bytesRead := 0, stream, received := 0, allocated := 0, handed := [], status := .running }

/-! ## Packets -/

/-- A well-formed event or ACL packet. -/
inductive HciPacket
  | event (code : UInt8) (params : List UInt8) (fits : params.length < 2 ^ 8)
  | acl (handle₀ handle₁ : UInt8) (data : List UInt8) (fits : data.length < 2 ^ 16)

def HciPacket.type : HciPacket → UInt8
  | .event .. => indEvent
  | .acl .. => indAclData

def HciPacket.header : HciPacket → List UInt8
  | .event code params _ => [code, UInt8.ofNat params.length]
  | .acl handle₀ handle₁ data _ =>
    [handle₀, handle₁, UInt8.ofNat (data.length % 2 ^ 8), UInt8.ofNat (data.length / 2 ^ 8)]

def HciPacket.payload : HciPacket → List UInt8
  | .event _ params _ => params
  | .acl _ _ data _ => data

/-- Header and payload, as they are handed over. -/
def HciPacket.bytes (p : HciPacket) : List UInt8 := p.header ++ p.payload

/-- The packet on the wire. -/
def HciPacket.wire (p : HciPacket) : List UInt8 := p.type :: p.bytes

def wireAll (packets : List HciPacket) : List UInt8 := (packets.map HciPacket.wire).flatten

/-- The packets whose buffer is allocated, from the `k`th allocation on. -/
def keptPackets (alloc : Nat → Option (List UInt8)) : Nat → List HciPacket → List (List UInt8)
  | _, [] => []
  | k, p :: ps =>
    if (alloc k).isSome then p.bytes :: keptPackets alloc (k + 1) ps
    else keptPackets alloc (k + 1) ps

/-- The thread is in its loop, and has handed over what it should. -/
def HandedRight (env : Surroundings) (packets : List HciPacket) (r : Reader) : Prop :=
  r.status = .running ∧ r.handed = keptPackets env.alloc 0 packets

/-- A packet that the thread gets right: it has a payload, and a buffer with room for it
whose length is a `uint16_t`. -/
def Fits (memory : Option (List UInt8)) (p : HciPacket) : Prop :=
  p.payload ≠ [] ∧ p.bytes.length < 2 ^ 16 ∧ ∃ m, memory = some m ∧ p.bytes.length ≤ m.length

/-- Every packet is one of those. -/
def AllFit (alloc : Nat → Option (List UInt8)) : Nat → List HciPacket → Prop
  | _, [] => True
  | k, p :: ps => Fits (alloc k) p ∧ AllFit alloc (k + 1) ps

/-! ## Writes through the pointer -/

variable {env : Surroundings} {r : Reader} {c c' : UartContext} {bytes more : List UInt8}

/-- A longer write is two writes. -/
theorem put_append (c : UartContext) (xs ys : List UInt8) :
    c.put (xs ++ ys) = (c.put xs).bind fun c => c.put ys := by
  unfold UartContext.put
  cases hptr : c.ptr with
  | buffType off =>
    simp only [List.length_append]
    by_cases hfirst : off + xs.length ≤ 1
    · by_cases hboth : off + (xs.length + ys.length) ≤ 1
      · rw [if_pos hfirst, if_pos hboth]
        simp only [Option.bind_some]
        rw [if_pos (by omega)]
        cases xs with
        | nil => simp
        | cons x xs =>
          have hys : ys = [] := List.length_eq_zero_iff.mp (by simp at hboth; omega)
          subst hys
          rfl
      · rw [if_pos hfirst, if_neg hboth]
        simp only [Option.bind_some]
        rw [if_neg (by omega)]
    · rw [if_neg hfirst, if_neg (by omega)]
      rfl
  | header off =>
    simp only [List.length_append]
    by_cases hfirst : off + xs.length ≤ c.header.length
    · rw [if_pos hfirst]
      simp only [Option.bind_some, length_blit hfirst, blit_blit hfirst, Nat.add_assoc]
    · rw [if_neg hfirst, if_neg (by omega)]
      rfl
  | data off =>
    simp only [List.length_append]
    by_cases hfirst : off + xs.length ≤ c.rxBuf.data.length
    · rw [if_pos hfirst]
      simp only [Option.bind_some, length_blit hfirst, blit_blit hfirst, Nat.add_assoc]
    · rw [if_neg hfirst, if_neg (by omega)]
      rfl

/-- A write changes neither the state nor the lengths. -/
theorem put_frame (h : c.put bytes = some c') :
    c'.rxState = c.rxState ∧ c'.maxReadLen = c.maxReadLen ∧ c'.headerLen = c.headerLen := by
  unfold UartContext.put at h
  split at h <;> split at h <;> cases h <;> exact ⟨rfl, rfl, rfl⟩

/-- The length to read may be another. -/
theorem put_maxReadLen (c : UartContext) (n : Nat) (bytes : List UInt8) :
    ({ c with maxReadLen := n } : UartContext).put bytes =
      (c.put bytes).map fun c => { c with maxReadLen := n } := by
  unfold UartContext.put
  cases hptr : c.ptr <;> simp only [] <;> split <;> rfl

/-! ## Passes -/

theorem allocBuf_bytesRead (env : Surroundings) (r : Reader) (payload : Nat) :
    (allocBuf env r payload).bytesRead = r.bytesRead := by
  unfold allocBuf
  dsimp only
  split <;> rfl

theorem getBuffer_bytesRead (h : r.bytesRead ≠ 0) : (getBuffer env r).bytesRead ≠ 0 := by
  unfold getBuffer
  dsimp only
  split
  · -- a corrupted reader keeps the count of its last receive
    change Reader.bytesRead (if _ then _ else _) ≠ 0
    split
    · rwa [allocBuf_bytesRead]
    split
    · rwa [allocBuf_bytesRead]
    · exact h
  · exact Nat.one_ne_zero

/-- A pass that has read something goes on reading. -/
theorem dispatch_bytesRead (h : r.bytesRead ≠ 0) : (dispatch env r).bytesRead ≠ 0 := by
  unfold dispatch
  split
  · split
    · exact h
    split
    · exact h
    · exact h
  · exact getBuffer_bytesRead h
  · exact getBuffer_bytesRead h
  · exact h

/-- The bytes a receive takes, with the bytes that come behind them. -/
theorem receive_count {rest : List UInt8} (hlen : r.ctx.maxReadLen = bytes.length) (hne : bytes ≠ [])
    (hstream : r.stream = bytes ++ rest) :
    ∃ n, 0 < n ∧ n ≤ bytes.length ∧
      min r.ctx.maxReadLen (min r.stream.length (env.available r.received + 1)) = n := by
  have hpos := List.length_pos_iff.mpr hne
  refine ⟨_, ?_, ?_, rfl⟩
  · rw [hlen, hstream, List.length_append]
    omega
  · rw [hlen]
    exact Nat.min_le_left _ _

theorem pass_eq_receive (hrun : r.status = .running) (hstate : r.ctx.rxState ≠ .getBuffer)
    (hstream : r.stream ≠ []) (hread : (receive env r).bytesRead ≠ 0) :
    pass env r = receive env r := by
  rw [pass, if_pos ⟨hrun, .inr hstream⟩]
  simp only [if_pos hstate]
  rw [if_neg fun h => hread h.2]

/-- However the bytes come in: they are all written, or the first of them that has no room
ends the run. -/
theorem collect {rest : List UInt8} (hrun : r.status = .running)
    (hstate : r.ctx.rxState ≠ .getBuffer) (hlen : r.ctx.maxReadLen = bytes.length)
    (hne : bytes ≠ []) (hstream : r.stream = bytes ++ rest) :
    ∃ j ≤ bytes.length, ∃ received maxReadLen bytesRead, bytesRead ≠ 0 ∧
      match r.ctx.put bytes with
      | some c => (pass env)^[j] r =
          dispatch env { r with ctx := { c with maxReadLen }, stream := rest, received, bytesRead }
      | none => ((pass env)^[j] r).status = .corrupted := by
  induction hsize : bytes.length using Nat.strongRecOn generalizing r bytes with
  | _ size ih =>
  subst hsize
  obtain ⟨n, hpos, hle, hcount⟩ := @receive_count env _ _ _ hlen hne hstream
  have hnonempty : r.stream ≠ [] := by
    rw [hstream]
    exact List.append_ne_nil_of_left_ne_nil hne _
  have htake : r.stream.take n = bytes.take n := by
    rw [hstream, List.take_append_of_le_length hle]
  have hdrop : r.stream.drop n = bytes.drop n ++ rest := by
    rw [hstream, List.drop_append_of_le_length hle]
  have hsplit := put_append r.ctx (bytes.take n) (bytes.drop n)
  rw [List.take_append_drop] at hsplit
  cases hfirst : r.ctx.put (bytes.take n) with
  | none =>
    -- the first part already leaves the object
    have hreceive : (receive env r).status = .corrupted ∧ (receive env r).bytesRead = n := by
      unfold receive
      simp only [hcount, htake, hfirst]
      exact ⟨trivial, trivial⟩
    refine ⟨1, by omega, 0, 0, 1, Nat.one_ne_zero, ?_⟩
    rw [hsplit, hfirst]
    change (pass env r).status = .corrupted
    rw [pass_eq_receive hrun hstate hnonempty (by omega)]
    exact hreceive.1
  | some c =>
    obtain ⟨hsame, hlength, -⟩ := put_frame hfirst
    by_cases hall : n = bytes.length
    · have hwhole : bytes.take n = bytes := by rw [hall, List.take_length]
      have hgone : bytes.drop n = [] := by rw [hall, List.drop_length]
      have hreceive : receive env r = dispatch env
          { r with ctx := c, stream := rest, received := r.received + 1, bytesRead := n } := by
        unfold receive
        simp only [hcount, htake, hfirst, hdrop, hgone, List.nil_append]
        rw [if_neg (by omega)]
      refine ⟨1, by omega, r.received + 1, c.maxReadLen, n, by omega, ?_⟩
      rw [← hwhole, hfirst]
      change pass env r = _
      rw [pass_eq_receive hrun hstate hnonempty, hreceive]
      rw [hreceive]
      exact dispatch_bytesRead (by change n ≠ 0; omega)
    · set next : Reader := { r with ctx := { c with maxReadLen := c.maxReadLen - n }
                                    stream := bytes.drop n ++ rest
                                    received := r.received + 1, bytesRead := n } with hnext
      have hreceive : receive env r = next := by
        unfold receive
        simp only [hcount, htake, hfirst, hdrop]
        rw [if_pos (by omega)]
      have hpass : pass env r = next := by
        rw [pass_eq_receive hrun hstate hnonempty, hreceive]
        rw [hreceive]
        change n ≠ 0
        omega
      have hleft : (bytes.drop n).length = bytes.length - n := List.length_drop
      obtain ⟨j, hj, received, maxReadLen, bytesRead, hread, hmatch⟩ :=
        ih (bytes.drop n).length (by omega) (show next.status = .running from hrun)
          (show next.ctx.rxState ≠ .getBuffer by change c.rxState ≠ _; rwa [hsame])
          (show c.maxReadLen - n = (bytes.drop n).length by omega)
          (by
            intro hnil
            rw [hnil] at hleft
            change 0 = _ at hleft
            omega)
          (show next.stream = bytes.drop n ++ rest from rfl) rfl
      refine ⟨j + 1, by omega, received, maxReadLen, bytesRead, hread, ?_⟩
      have hput : next.ctx.put (bytes.drop n) =
          (c.put (bytes.drop n)).map fun c' => { c' with maxReadLen := c.maxReadLen - n } :=
        put_maxReadLen c (c.maxReadLen - n) (bytes.drop n)
      rw [hsplit, hfirst, Option.bind_some]
      rw [hput] at hmatch
      rw [Function.iterate_succ_apply, hpass]
      cases hsecond : c.put (bytes.drop n) with
      | none =>
        rw [hsecond] at hmatch
        exact hmatch
      | some c' =>
        rw [hsecond] at hmatch
        exact hmatch

/-- A thread that is out of its loop, or that waits, stays so. -/
theorem iterate_stopped (h : r.status ≠ .running ∨ r.ctx.rxState ≠ .getBuffer ∧ r.stream = [])
    (n : Nat) : (pass env)^[n] r = r := by
  apply Function.iterate_fixed
  rw [pass, if_neg]
  rintro ⟨hrun, hgo⟩
  rcases h with hstop | ⟨hstate, hempty⟩
  · exact hstop hrun
  · rcases hgo with hbuffer | hmore
    · exact hstate hbuffer
    · exact hmore hempty

/-! ## The stations of a packet -/

/-- Between two packets, after `k` allocations. -/
structure Ready (k : Nat) (handed : List (List UInt8)) (stream : List UInt8) (r : Reader) : Prop where
  running : r.status = .running
  state : r.ctx.rxState = .getType
  want : r.ctx.maxReadLen = 1
  ptr : r.ctx.ptr = .buffType 0
  header : r.ctx.header.length = 4
  allocated : r.allocated = k
  handed : r.handed = handed
  stream : r.stream = stream

/-- In front of the header of `p`. -/
structure AtHeader (p : HciPacket) (k : Nat) (handed : List (List UInt8)) (stream : List UInt8)
    (r : Reader) : Prop where
  running : r.status = .running
  state : r.ctx.rxState = .getHeader
  want : r.ctx.maxReadLen = p.header.length
  headerLen : r.ctx.headerLen = p.header.length
  ptr : r.ctx.ptr = .header 0
  header : r.ctx.header.length = 4
  buffType : r.ctx.buffType = p.type
  allocated : r.allocated = k
  handed : r.handed = handed
  stream : r.stream = stream

/-- In front of the payload of `p`, its header being in the buffer's `memory`. -/
structure AtData (p : HciPacket) (memory : List UInt8) (k : Nat) (handed : List (List UInt8))
    (stream : List UInt8) (r : Reader) : Prop where
  running : r.status = .running
  state : r.ctx.rxState = .getData
  want : r.ctx.maxReadLen = p.payload.length
  ptr : r.ctx.ptr = .data p.header.length
  data : r.ctx.rxBuf = ⟨blit memory 0 p.header, p.bytes.length % 2 ^ 16⟩
  header : r.ctx.header.length = 4
  buffType : r.ctx.buffType = p.type
  allocated : r.allocated = k
  handed : r.handed = handed
  stream : r.stream = stream

variable {p : HciPacket} {memory rest : List UInt8} {k : Nat} {handed : List (List UInt8)}

theorem header_bounds (p : HciPacket) : 2 ≤ p.header.length ∧ p.header.length ≤ 4 := by
  cases p <;> exact ⟨by simp [HciPacket.header], by simp [HciPacket.header]⟩

theorem type_eq (p : HciPacket) : p.type = indEvent ∨ p.type = indAclData := by
  cases p
  · exact .inl rfl
  · exact .inr rfl

/-- The type's byte leads to the header. -/
theorem Ready.reachesHeader (h : Ready k handed (p.wire ++ rest) r) :
    ∃ j ≤ 1, AtHeader p k handed (p.bytes ++ rest) ((pass env)^[j] r) := by
  obtain ⟨j, hj, received, maxReadLen, bytesRead, -, hpasses⟩ :=
    @collect env r [p.type] (p.bytes ++ rest) h.running (by rw [h.state]; decide) h.want
      (List.cons_ne_nil _ _) h.stream
  have hput : r.ctx.put [p.type] = some { r.ctx with buffType := p.type, ptr := .buffType 1 } := by
    simp [UartContext.put, h.ptr]
  rw [hput] at hpasses
  refine ⟨j, hj, ?_⟩
  dsimp only at hpasses
  rw [hpasses]
  simp only [dispatch, h.state]
  cases p with
  | event code params fits =>
    have hevent : (HciPacket.event code params fits).type = indEvent := rfl
    rw [if_pos hevent]
    exact ⟨h.running, rfl, rfl, rfl, rfl, h.header, rfl, h.allocated, h.handed, rfl⟩
  | acl handle₀ handle₁ data fits =>
    have hacl : (HciPacket.acl handle₀ handle₁ data fits).type = indAclData := rfl
    have hother : ¬ (HciPacket.acl handle₀ handle₁ data fits).type = indEvent := by
      rw [hacl]
      decide
    rw [if_neg hother, if_pos hacl]
    exact ⟨h.running, rfl, rfl, rfl, rfl, h.header, rfl, h.allocated, h.handed, rfl⟩

/-- What the header says of the payload. -/
theorem allocBuf_of_header (p : HciPacket) {q : Reader} (hheader : q.ctx.header.take p.header.length = p.header)
    (htype : q.ctx.buffType = p.type) :
    (if q.ctx.buffType = indAclData then allocBuf env q (lEtoHost16 (q.ctx.header.drop 2))
      else if q.ctx.buffType = indEvent then allocBuf env q (q.ctx.header.getD 1 0).toNat
      else { q with ctx := q.ctx.awaitType }) = allocBuf env q p.payload.length := by
  obtain ⟨more, hmore⟩ : ∃ more, q.ctx.header = p.header ++ more :=
    ⟨_, (by rw [← hheader, List.take_append_drop] : q.ctx.header = p.header ++ q.ctx.header.drop _)⟩
  rw [htype, hmore]
  cases p with
  | event code params fits =>
    simp only [HciPacket.type]
    rw [if_neg (show ¬ indEvent = indAclData by decide), if_pos trivial]
    have hlen : (UInt8.ofNat params.length).toNat = params.length := by
      rw [UInt8.toNat_ofNat']
      exact Nat.mod_eq_of_lt fits
    congr 1
  | acl handle₀ handle₁ data fits =>
    simp only [HciPacket.type]
    rw [if_pos trivial]
    have hlow : (UInt8.ofNat (data.length % 2 ^ 8)).toNat = data.length % 2 ^ 8 := by
      rw [UInt8.toNat_ofNat']
      exact Nat.mod_eq_of_lt (Nat.mod_lt _ (by decide))
    have hhigh : (UInt8.ofNat (data.length / 2 ^ 8)).toNat = data.length / 2 ^ 8 := by
      rw [UInt8.toNat_ofNat']
      exact Nat.mod_eq_of_lt (by omega)
    congr 1
    change (UInt8.ofNat (data.length % 2 ^ 8)).toNat + 2 ^ 8 * (UInt8.ofNat (data.length / 2 ^ 8)).toNat =
      data.length
    rw [hlow, hhigh]
    exact Nat.mod_add_div _ _

/-- A whole header that has been read. -/
structure HeaderRead (p : HciPacket) (q : Reader) : Prop where
  header : q.ctx.header.take p.header.length = p.header
  headerLen : q.ctx.headerLen = p.header.length
  buffType : q.ctx.buffType = p.type

theorem HeaderRead.take {q : Reader} (h : HeaderRead p q) : q.ctx.header.take q.ctx.headerLen = p.header := by
  rw [h.headerLen, h.header]

/-- Without a buffer the header is copied over the one byte of the type. -/
theorem HeaderRead.noBuffer {q : Reader} (h : HeaderRead p q) (halloc : env.alloc q.allocated = none) :
    (getBuffer env q).status = .corrupted := by
  have hlow := (header_bounds p).1
  have hbuffer : allocBuf env q p.payload.length =
      { q with allocated := q.allocated + 1, ctx := q.ctx.awaitType } := by
    unfold allocBuf
    rw [halloc]
  have hout : q.ctx.awaitType.put p.header = none := by
    rw [UartContext.put]
    dsimp only [UartContext.awaitType]
    rw [if_neg (by omega)]
  unfold getBuffer
  dsimp only
  rw [allocBuf_of_header p h.header h.buffType, hbuffer]
  dsimp only [UartContext.awaitType] at hout ⊢
  rw [h.take, hout]

/-- A buffer without room for the header is written past its end. -/
theorem HeaderRead.shortBuffer {q : Reader} (h : HeaderRead p q)
    (halloc : env.alloc q.allocated = some memory) (hshort : ¬ p.header.length ≤ memory.length) :
    (getBuffer env q).status = .corrupted := by
  have hbuffer : allocBuf env q p.payload.length =
      { q with allocated := q.allocated + 1
               ctx := { q.ctx with maxReadLen := p.payload.length, ptr := .data 0
                                   rxBuf := ⟨memory, (p.payload.length + q.ctx.headerLen) % 2 ^ 16⟩ } } := by
    unfold allocBuf
    rw [halloc]
  have hout : ({ q.ctx with
      maxReadLen := p.payload.length, ptr := .data 0
      rxBuf := ⟨memory, (p.payload.length + q.ctx.headerLen) % 2 ^ 16⟩ } : UartContext).put p.header =
      none := by
    rw [UartContext.put]
    dsimp only
    rw [if_neg (by omega)]
  unfold getBuffer
  dsimp only
  rw [allocBuf_of_header p h.header h.buffType, hbuffer]
  dsimp only at hout ⊢
  rw [h.take, hout]

/-- With room for it the header stands in front of the payload. -/
theorem HeaderRead.buffer {q : Reader} (h : HeaderRead p q)
    (halloc : env.alloc q.allocated = some memory) (hroom : p.header.length ≤ memory.length) :
    getBuffer env q =
      { q with allocated := q.allocated + 1, bytesRead := 1
               ctx := { q.ctx with maxReadLen := p.payload.length, ptr := .data p.header.length
                                   rxBuf := ⟨blit memory 0 p.header, p.bytes.length % 2 ^ 16⟩
                                   rxState := .getData } } := by
  have hbuffer : allocBuf env q p.payload.length =
      { q with allocated := q.allocated + 1
               ctx := { q.ctx with maxReadLen := p.payload.length, ptr := .data 0
                                   rxBuf := ⟨memory, (p.payload.length + q.ctx.headerLen) % 2 ^ 16⟩ } } := by
    unfold allocBuf
    rw [halloc]
  have hin : ({ q.ctx with
      maxReadLen := p.payload.length, ptr := .data 0
      rxBuf := ⟨memory, (p.payload.length + q.ctx.headerLen) % 2 ^ 16⟩ } : UartContext).put p.header =
      some { q.ctx with
        maxReadLen := p.payload.length, ptr := .data (0 + p.header.length)
        rxBuf := ⟨blit memory 0 p.header, (p.payload.length + q.ctx.headerLen) % 2 ^ 16⟩ } := by
    rw [UartContext.put]
    dsimp only
    rw [if_pos (by omega)]
  have hlength : p.bytes.length = p.payload.length + q.ctx.headerLen := by
    rw [HciPacket.bytes, List.length_append, h.headerLen, Nat.add_comm]
  unfold getBuffer
  dsimp only
  rw [allocBuf_of_header p h.header h.buffType, hbuffer]
  dsimp only at hin ⊢
  rw [h.take, hin, hlength]
  simp only [Nat.zero_add]

/-- The header's bytes lead to the payload when a buffer with room for the header is found,
and end the run otherwise. -/
theorem AtHeader.reachesData (h : AtHeader p k handed (p.bytes ++ rest) r) :
    ∃ j ≤ p.header.length,
      match env.alloc k with
      | none => ((pass env)^[j] r).status = .corrupted
      | some memory =>
        if p.header.length ≤ memory.length then
          AtData p memory (k + 1) handed (p.payload ++ rest) ((pass env)^[j] r)
        else ((pass env)^[j] r).status = .corrupted := by
  obtain ⟨hlow, hhigh⟩ := header_bounds p
  have hroom : p.header.length ≤ r.ctx.header.length := by
    rw [h.header]
    exact hhigh
  obtain ⟨j, hj, received, maxReadLen, bytesRead, -, hpasses⟩ :=
    @collect env r p.header (p.payload ++ rest) h.running (by rw [h.state]; decide) h.want
      (List.ne_nil_of_length_pos (by omega))
      (by rw [h.stream, HciPacket.bytes, List.append_assoc])
  have hput : r.ctx.put p.header = some { r.ctx with header := blit r.ctx.header 0 p.header
                                                     ptr := .header (0 + p.header.length) } := by
    rw [UartContext.put, h.ptr]
    dsimp only
    rw [if_pos (by omega)]
  rw [hput] at hpasses
  dsimp only at hpasses
  have hblit : blit r.ctx.header 0 p.header = p.header ++ r.ctx.header.drop p.header.length := by
    rw [blit, List.take_zero, List.nil_append, Nat.zero_add]
  have hfour : (blit r.ctx.header 0 p.header).length = 4 := by
    rw [length_blit (by omega), h.header]
  set q : Reader := { r with
    ctx := { r.ctx with header := blit r.ctx.header 0 p.header, ptr := .header (0 + p.header.length)
                        maxReadLen, rxState := .getBuffer }
    stream := p.payload ++ rest, received, bytesRead } with hq
  have hread : HeaderRead p q :=
    ⟨by change (blit r.ctx.header 0 p.header).take _ = _; rw [hblit, List.take_left], h.headerLen,
      h.buffType⟩
  have hbuffer : (pass env)^[j] r = getBuffer env q := by
    rw [hpasses]
    simp only [dispatch, h.state]
    rfl
  have hk : q.allocated = k := h.allocated
  refine ⟨j, hj, ?_⟩
  rw [hbuffer]
  cases halloc : env.alloc k with
  | none => exact hread.noBuffer (by rw [hk]; exact halloc)
  | some memory =>
    dsimp only
    split
    · rename_i hfits
      rw [hread.buffer (by rw [hk]; exact halloc) hfits]
      exact ⟨h.running, rfl, rfl, rfl, rfl, hfour, h.buffType, congrArg (· + 1) hk, h.handed, rfl⟩
    · rename_i hshort
      exact hread.shortBuffer (by rw [hk]; exact halloc) hshort

/-- A payload that has room is handed over with its header, cut to the length that the
buffer was given. -/
theorem AtData.hands (h : AtData p memory k handed (p.payload ++ rest) r) (hne : p.payload ≠ [])
    (hroom : p.bytes.length ≤ memory.length) :
    ∃ j ≤ p.payload.length,
      Ready k (handed ++ [p.bytes.take (p.bytes.length % 2 ^ 16)]) rest ((pass env)^[j] r) := by
  obtain ⟨j, hj, received, maxReadLen, bytesRead, -, hpasses⟩ :=
    @collect env r p.payload rest h.running (by rw [h.state]; decide) h.want hne h.stream
  have hlength : p.bytes.length = p.header.length + p.payload.length := List.length_append
  have hfirst : 0 + p.header.length ≤ memory.length := by omega
  have hput : r.ctx.put p.payload = some { r.ctx with
      rxBuf := ⟨blit (blit memory 0 p.header) p.header.length p.payload, p.bytes.length % 2 ^ 16⟩
      ptr := .data (p.header.length + p.payload.length) } := by
    rw [UartContext.put, h.ptr, h.data]
    dsimp only
    rw [if_pos (by rw [length_blit hfirst]; omega)]
  rw [hput] at hpasses
  dsimp only at hpasses
  have hwhole : blit (blit memory 0 p.header) p.header.length p.payload =
      p.bytes ++ memory.drop p.bytes.length := by
    have hblit : blit (blit memory 0 p.header) (0 + p.header.length) p.payload =
        blit memory 0 (p.header ++ p.payload) := blit_blit hfirst
    rw [Nat.zero_add] at hblit
    rw [hblit, blit, List.take_zero, List.nil_append, Nat.zero_add]
    rfl
  refine ⟨j, hj, ?_⟩
  rw [hpasses]
  simp only [dispatch, h.state, h.buffType, if_pos (type_eq p)]
  refine ⟨h.running, rfl, rfl, rfl, h.header, h.allocated, ?_, rfl⟩
  change r.handed ++ [(blit (blit memory 0 p.header) p.header.length p.payload).take
    (p.bytes.length % 2 ^ 16)] = _
  rw [h.handed, hwhole, List.take_append_of_le_length (Nat.mod_le _ _)]

/-- A payload that has no room is written past the end of the buffer. -/
theorem AtData.overruns (h : AtData p memory k handed (p.payload ++ rest) r) (hne : p.payload ≠ [])
    (hheader : p.header.length ≤ memory.length) (hshort : ¬ p.bytes.length ≤ memory.length) :
    ∃ j ≤ p.payload.length, ((pass env)^[j] r).status = .corrupted := by
  obtain ⟨j, hj, received, maxReadLen, bytesRead, -, hpasses⟩ :=
    @collect env r p.payload rest h.running (by rw [h.state]; decide) h.want hne h.stream
  have hlength : p.bytes.length = p.header.length + p.payload.length := List.length_append
  have hput : r.ctx.put p.payload = none := by
    rw [UartContext.put, h.ptr, h.data]
    dsimp only
    rw [if_neg (by rw [length_blit (by omega)]; omega)]
  rw [hput] at hpasses
  exact ⟨j, hj, hpasses⟩

/-- Without a payload the thread waits for a byte of the next packet, and then leaves its
loop. -/
theorem AtData.leaves (h : AtData p memory k handed rest r) (hempty : p.payload = [])
    (hheader : p.header.length ≤ memory.length) :
    (rest = [] ∧ pass env r = r) ∨ (rest ≠ [] ∧ (pass env r).status = .left) := by
  have hstate : r.ctx.rxState ≠ .getBuffer := by
    rw [h.state]
    decide
  by_cases hrest : rest = []
  · left
    refine ⟨hrest, iterate_stopped (.inr ⟨hstate, by rw [h.stream, hrest]⟩) 1⟩
  · right
    refine ⟨hrest, ?_⟩
    have hwant : r.ctx.maxReadLen = 0 := by
      rw [h.want, hempty]
      rfl
    have hput : r.ctx.put [] = some r.ctx := by
      rw [UartContext.put, h.ptr, h.data]
      dsimp only
      rw [if_pos (by rw [length_blit (by omega)]; exact hheader), blit, List.append_nil,
        List.length_nil, Nat.add_zero, List.take_append_drop, ← h.data, ← h.ptr]
    have hreceive : (receive env r).status = .running ∧ (receive env r).bytesRead = 0 := by
      unfold receive
      simp only [hwant, Nat.zero_min, List.take_zero, hput, ne_eq, not_true_eq_false, if_false,
        dispatch, h.state]
      exact ⟨h.running, trivial⟩
    rw [pass, if_pos ⟨h.running, .inr (by rw [h.stream]; exact hrest)⟩]
    simp only [if_pos hstate]
    rw [if_pos hreceive]

/-! ## Whole streams -/

theorem allocBuf_handed (env : Surroundings) (r : Reader) (payload : Nat) :
    (allocBuf env r payload).handed = r.handed := by
  unfold allocBuf
  dsimp only
  split <;> rfl

theorem getBuffer_handed (env : Surroundings) (r : Reader) : (getBuffer env r).handed = r.handed := by
  have hsame : Reader.handed (if r.ctx.buffType = indAclData then
      allocBuf env r (lEtoHost16 (r.ctx.header.drop 2))
    else if r.ctx.buffType = indEvent then allocBuf env r (r.ctx.header.getD 1 0).toNat
    else { r with ctx := r.ctx.awaitType }) = r.handed := by
    split
    · exact allocBuf_handed ..
    split
    · exact allocBuf_handed ..
    · rfl
  unfold getBuffer
  dsimp only
  split
  · exact hsame
  · exact hsame

theorem dispatch_handed (env : Surroundings) (r : Reader) : r.handed <+: (dispatch env r).handed := by
  unfold dispatch
  split
  · split
    · exact List.prefix_rfl
    split
    · exact List.prefix_rfl
    · exact List.prefix_rfl
  · simp [getBuffer_handed]
  · simp [getBuffer_handed]
  · dsimp only
    split
    · exact List.prefix_append _ _
    · exact List.prefix_rfl

theorem receive_handed (env : Surroundings) (r : Reader) : r.handed <+: (receive env r).handed := by
  unfold receive
  dsimp only
  split
  · exact List.prefix_rfl
  split
  · exact List.prefix_rfl
  · apply List.IsPrefix.trans _ (dispatch_handed ..)
    exact List.prefix_rfl

theorem pass_handed (env : Surroundings) (r : Reader) : r.handed <+: (pass env r).handed := by
  have hinner : r.handed <+: Reader.handed
      (if r.ctx.rxState ≠ .getBuffer then receive env r else dispatch env r) := by
    split
    · exact receive_handed ..
    · exact dispatch_handed ..
  unfold pass
  dsimp only
  generalize (if r.ctx.rxState ≠ .getBuffer then receive env r else dispatch env r) = q at hinner ⊢
  split
  · split
    · exact hinner
    · exact hinner
  · exact List.prefix_rfl

/-- What has been handed over stays so. -/
theorem iterate_handed (env : Surroundings) (r : Reader) (n : Nat) :
    r.handed <+: ((pass env)^[n] r).handed := by
  induction n generalizing r with
  | zero => exact List.prefix_rfl
  | succ n ih =>
    rw [Function.iterate_succ_apply]
    exact (pass_handed env r).trans (ih _)

/-- The passes that are left after the first `j`. -/
theorem iterate_split {j n : Nat} (h : j ≤ n) (r : Reader) :
    (pass env)^[n] r = (pass env)^[n - j] ((pass env)^[j] r) := by
  rw [← Function.iterate_add_apply, Nat.sub_add_cancel h]

/-- A run that has gone wrong is not right later. -/
theorem not_running_of_stopped {j n : Nat} (h : j ≤ n) (hstop : ((pass env)^[j] r).status ≠ .running) :
    ((pass env)^[n] r).status ≠ .running := by
  rw [iterate_split h, iterate_stopped (.inl hstop)]
  exact hstop

/-- From a packet's type to its payload. -/
theorem Ready.reachesData (h : Ready k handed (p.wire ++ rest) r) :
    ∃ j ≤ p.header.length + 1,
      match env.alloc k with
      | none => ((pass env)^[j] r).status = .corrupted
      | some memory =>
        if p.header.length ≤ memory.length then
          AtData p memory (k + 1) handed (p.payload ++ rest) ((pass env)^[j] r)
        else ((pass env)^[j] r).status = .corrupted := by
  obtain ⟨j, hj, hheader⟩ := @Ready.reachesHeader env _ _ _ _ _ h
  obtain ⟨i, hi, hdata⟩ := @AtHeader.reachesData env _ _ _ _ _ hheader
  rw [← Function.iterate_add_apply] at hdata
  exact ⟨i + j, by omega, hdata⟩

/-- From any packet on: all that is kept is handed over, and the loop goes on, if and only if
every packet is one that the thread gets right. -/
theorem Ready.right_iff {packets : List HciPacket} {n : Nat} (h : Ready k handed (wireAll packets) r)
    (hn : (wireAll packets).length ≤ n) :
    (((pass env)^[n] r).status = .running ∧
      ((pass env)^[n] r).handed = handed ++ keptPackets env.alloc k packets) ↔
    AllFit env.alloc k packets := by
  induction packets generalizing k handed r n with
  | nil =>
    have hstate : r.ctx.rxState ≠ .getBuffer := by
      rw [h.state]
      decide
    rw [iterate_stopped (.inr ⟨hstate, h.stream⟩)]
    exact iff_of_true ⟨h.running, by rw [h.handed, keptPackets, List.append_nil]⟩ trivial
  | cons p packets ih =>
    have hwire : wireAll (p :: packets) = p.wire ++ wireAll packets := rfl
    have hbytes : p.bytes.length = p.header.length + p.payload.length := List.length_append
    have hlength : (wireAll (p :: packets)).length =
        p.header.length + p.payload.length + 1 + (wireAll packets).length := by
      rw [hwire, List.length_append, HciPacket.wire, List.length_cons, hbytes]
    rw [hwire] at h
    obtain ⟨j, hj, hdata⟩ := @Ready.reachesData env _ _ _ _ _ h
    cases halloc : env.alloc k with
    | none =>
      rw [halloc] at hdata
      have hstop := not_running_of_stopped (n := n) (by omega)
        (by rw [hdata]; decide : ((pass env)^[j] r).status ≠ .running)
      refine iff_of_false (fun hright => hstop hright.1) fun hfit => ?_
      obtain ⟨-, -, m, hm, -⟩ := hfit.1
      rw [halloc] at hm
      cases hm
    | some memory =>
      rw [halloc] at hdata
      dsimp only at hdata
      have hfits : Fits (env.alloc k) p ↔
          p.payload ≠ [] ∧ p.bytes.length < 2 ^ 16 ∧ p.bytes.length ≤ memory.length := by
        rw [Fits, halloc]
        simp
      have hkept : keptPackets env.alloc k (p :: packets) =
          p.bytes :: keptPackets env.alloc (k + 1) packets := by
        rw [keptPackets, halloc]
        rfl
      rw [AllFit, hfits, hkept]
      by_cases hheader : p.header.length ≤ memory.length
      swap
      · rw [if_neg hheader] at hdata
        have hstop := not_running_of_stopped (n := n) (by omega)
          (by rw [hdata]; decide : ((pass env)^[j] r).status ≠ .running)
        exact iff_of_false (fun hright => hstop hright.1) fun hfit => by omega
      rw [if_pos hheader] at hdata
      by_cases hempty : p.payload = []
      · refine iff_of_false (fun hright => ?_) fun hfit => hfit.1.1 hempty
        rw [hempty, List.nil_append] at hdata
        rcases hdata.leaves hempty hheader with ⟨-, hwaits⟩ | ⟨hrest, hleft⟩
        · have hhanded := hright.2
          rw [iterate_split (show j ≤ n by omega), Function.iterate_fixed hwaits, hdata.handed] at hhanded
          have hsame := congrArg List.length hhanded
          rw [List.length_append, List.length_cons] at hsame
          omega
        · have hpos := List.length_pos_iff.mpr hrest
          have hnext : (pass env)^[j + 1] r = pass env ((pass env)^[j] r) :=
            Function.iterate_succ_apply' ..
          exact not_running_of_stopped (n := n) (j := j + 1) (by omega)
            (by rw [hnext, hleft]; decide) hright.1
      by_cases hroom : p.bytes.length ≤ memory.length
      swap
      · obtain ⟨i, hi, hcorrupted⟩ := hdata.overruns hempty hheader hroom
        rw [← Function.iterate_add_apply] at hcorrupted
        have hstop := not_running_of_stopped (n := n) (by omega)
          (by rw [hcorrupted]; decide : ((pass env)^[i + j] r).status ≠ .running)
        exact iff_of_false (fun hright => hstop hright.1) fun hfit => hroom hfit.1.2.2
      obtain ⟨i, hi, hready⟩ := hdata.hands hempty hroom
      rw [← Function.iterate_add_apply] at hready
      rw [iterate_split (show i + j ≤ n by omega)]
      by_cases hsmall : p.bytes.length < 2 ^ 16
      · rw [Nat.mod_eq_of_lt hsmall, List.take_length] at hready
        have hrest := ih hready (n := n - (i + j)) (by omega)
        rw [List.append_assoc] at hrest
        exact hrest.trans ⟨fun hfit => ⟨⟨hempty, hsmall, hroom⟩, hfit⟩, fun hfit => hfit.2⟩
      · -- the buffer's length has wrapped, so what is handed over is not the packet
        refine iff_of_false (fun hright => ?_) fun hfit => hsmall hfit.1.2.1
        have hgrown := iterate_handed env ((pass env)^[i + j] r) (n - (i + j))
        rw [hready.handed, hright.2] at hgrown
        have hhead := (List.prefix_append_right_inj _).mp hgrown
        have hcut := (List.cons_prefix_cons.mp hhead).1
        have hsame := congrArg List.length hcut
        rw [List.length_take] at hsame
        have hmod := Nat.mod_lt p.bytes.length (show 0 < 2 ^ 16 by decide)
        omega

/-- For every stream of packets, every way it comes in and every pattern of allocations: the
thread hands over what it should and goes on if and only if every packet has a payload, and
a buffer with room for it whose length does not wrap. -/
theorem uart_read_thread_right_iff (env : Surroundings) (packets : List HciPacket) (c : UartContext)
    (hc : c.header.length = 4) (n : Nat) (hn : (wireAll packets).length ≤ n) :
    HandedRight env packets ((pass env)^[n] (hciUartOpen c (wireAll packets))) ↔
      AllFit env.alloc 0 packets := by
  have hready : Ready 0 [] (wireAll packets) (hciUartOpen c (wireAll packets)) :=
    ⟨rfl, rfl, rfl, rfl, hc, rfl, rfl, rfl⟩
  have hright := @Ready.right_iff env _ _ _ _ _ hready hn
  rwa [List.nil_append] at hright

/-- The thread before its first packet. -/
def uartCtx : UartContext := ⟨0, 0, .buffType 0, [0, 0, 0, 0], 0, ⟨[], 0⟩, .getType⟩

/-- A command's completion and two bytes of data. -/
def twoPackets : List HciPacket := [.event 0x0E [1, 0] (by decide), .acl 1 0x20 [7, 8] (by decide)]

/-- Buffers of 8 bytes, the stream a byte at a time. -/
theorem uart_read_thread_right_iff_bytewise :
    HandedRight ⟨fun _ => 0, fun _ => some [0, 0, 0, 0, 0, 0, 0, 0]⟩ twoPackets
        ((pass ⟨fun _ => 0, fun _ => some [0, 0, 0, 0, 0, 0, 0, 0]⟩)^[12]
          (hciUartOpen uartCtx (wireAll twoPackets))) ↔
      AllFit (fun _ => some [0, 0, 0, 0, 0, 0, 0, 0]) 0 twoPackets :=
  uart_read_thread_right_iff ⟨fun _ => 0, fun _ => some [0, 0, 0, 0, 0, 0, 0, 0]⟩ twoPackets uartCtx
    rfl 12 (by decide)

/-- There is no buffer for the first packet: its header is copied over the type. -/
theorem header_over_type :
    ¬ HandedRight ⟨fun _ => 99, fun k => if k = 0 then none else some [0, 0, 0, 0, 0, 0, 0, 0]⟩
      twoPackets
      ((pass ⟨fun _ => 99, fun k => if k = 0 then none else some [0, 0, 0, 0, 0, 0, 0, 0]⟩)^[12]
        (hciUartOpen uartCtx (wireAll twoPackets))) :=
  fun h => absurd h.1 (by decide)

end BouffaloSdk.HciUart
