import BouffaloSdk.Kit.Word

/-!
# Receive path of the host driver

`handle_amsdu_pdus` and `sdio_read_callback` of `sdio_msg_handlers.c`, with the
frames that they hand to `handle_eth_frame`. The memory is a function of the
address, and the first page is not mapped.
-/

namespace BouffaloSdk.SdioMsgHandlers
open Kit.Word

def sdRxBufLen : Nat := 2048
def sizeofSdioTopMsg : Nat := 12
def sizeofEthHdr : Nat := 14
def sizeofAmsduSubframe : Nat := 22
def sizeofLlcSnap : Nat := 8
def bf1bSdioMsgTypeEthFrame : Nat := 0xabcd
def bf1bSdioMsgTypeCmd : Nat := 0xef01
def bf1bSubtypeStaFromWifiRx : Nat := 0x2001
def bf1bSubtypeApFromWifiRx : Nat := 0x2003
def pageSize : Nat := 4096

abbrev Mem := Nat → UInt8

def read (mem : Mem) (a n : Nat) : List UInt8 := (List.range n).map fun i => mem (a + i)

/-- Two bytes, low one first. -/
def readU16 (mem : Mem) (a : Nat) : Nat := (mem a).toNat + 2 ^ 8 * (mem (a + 1)).toNat

/-- `struct sdio_top_msg`. -/
structure TopMsg where
  type : Nat
  len : Nat
  pldOff : Nat
  isAmsdu : Bool
  hasTwin : Bool
  subtype : Nat
  firstPartLen : Nat
  deriving DecidableEq

def topMsg (mem : Mem) (pdu : Nat) : TopMsg :=
  { type := readU16 mem pdu
    len := readU16 mem (pdu + 2)
    pldOff := (mem (pdu + 4)).toNat
    isAmsdu := mem (pdu + 5) ≠ 0
    hasTwin := mem (pdu + 6) ≠ 0
    subtype := readU16 mem (pdu + 7)
    firstPartLen := readU16 mem (pdu + 9) }

/-- What `handle_eth_frame` is given: the bytes of the Ethernet header, which
is on the stack or at `hdrAt`, and two ranges of bytes. The frame was found in
`pdu1` and `pdu2`; an address 0 is `NULL`. -/
structure EthFrame where
  subtype : Nat
  ethHdr : List UInt8
  hdrAt : Nat
  p1 : Nat
  len1 : Nat
  p2 : Nat
  len2 : Nat
  lenOrig : Nat
  pdu1 : Nat
  pdu2 : Nat
  deriving DecidableEq

/-- The bytes that `handle_eth_frame_rx` hands to the network. -/
def EthFrame.received (mem : Mem) (f : EthFrame) : List UInt8 :=
  f.ethHdr ++ read mem f.p1 f.len1 ++ (if f.p2 ≠ 0 then read mem f.p2 f.len2 else [])

/-! ## A-MSDU -/

/-- `READ_U16_BE` of the length in a subframe header. -/
def msduLen (header : List UInt8) : Nat :=
  2 ^ 8 * (header.getD 12 0).toNat + (header.getD 13 0).toNat

/-- The Ethernet header of a subframe: both addresses and the protocol. -/
def ethHdrOf (header : List UInt8) : List UInt8 :=
  header.take 12 ++ (header.drop 20).take 2

/-- Where the loop over the subframes is: `subfrm` is in the second PDU once
this is consumed. -/
structure Walk where
  subfrm : Nat
  tail : Nat
  pdu2Consumed : Bool
  lenProcessed : Nat

/-- One turn of the loop: a return, a bad access, or a frame that is handed on,
after which the loop returns, goes on or has a bad access. -/
inductive Turn
  | done
  | crash
  | last (f : EthFrame)
  | more (f : EthFrame) (w : Walk)
  | oops (f : EthFrame)

def amsduFrame (header : List UInt8) (p1 len1 p2 len2 pdu1 pdu2 : Nat) : EthFrame :=
  { subtype := bf1bSubtypeStaFromWifiRx
    ethHdr := ethHdrOf header
    hdrAt := 0
    p1 := p1
    len1 := len1
    p2 := p2
    len2 := len2
    lenOrig := 0
    pdu1 := pdu1
    pdu2 := pdu2 }

/-- What follows a frame: `w` is the next turn, up to `lenProcessed`. -/
def afterFrame (msgLen subfrmLen : Nat) (f : EthFrame) (w : Walk) : Turn :=
  if subfrmLen + w.lenProcessed ≥ msgLen then .last f
  else .more f { w with lenProcessed := add16 w.lenProcessed ((subfrmLen + 3) / 4 * 4) }

/-- The bytes of a header that starts in `pdu1` and ends in `pdu2`; without a
`pdu2` its end is what `copy` on the stack has. -/
def headerCopy (mem : Mem) (copy : List UInt8) (subfrm len0 pdu2 : Nat) : List UInt8 :=
  read mem subfrm len0 ++
    (if pdu2 ≠ 0 then read mem pdu2 (sizeofAmsduSubframe - len0) else copy.drop len0)

/-- A pointer moved down. -/
def subPtr (p n : Nat) : Nat := if n ≤ p then p - n else 2 ^ 64 + p - n

/-- One turn of the loop. A header that lies across a tail behind which it
starts is copied with a negative length. -/
def amsduTurn (mem : Mem) (copy : List UInt8) (pdu1 pdu2 : Nat) (w : Walk) : Turn :=
  let msg := topMsg mem pdu1
  if w.subfrm + sizeofAmsduSubframe > w.tail then
    if w.pdu2Consumed then .done
    else if w.tail < w.subfrm then .crash
    else
      let len0 := w.tail - w.subfrm
      let len1 := sizeofAmsduSubframe - len0
      let header := headerCopy mem copy w.subfrm len0 pdu2
      let msduLen := msduLen header
      if msduLen > 1508 then .done
      else
        let pldLen := sub16 msduLen sizeofLlcSnap
        let subfrmLen := sizeofAmsduSubframe - sizeofLlcSnap + msduLen
        let f := amsduFrame header (pdu2 + len1) pldLen 0 0 pdu1 pdu2
        if pdu2 = 0 ∧ pldLen ≠ 0 then .oops f
        else
          afterFrame msg.len subfrmLen f
            { subfrm := pdu2 + len1 + pldLen + (4 - subfrmLen % 4)
              tail := subPtr (pdu2 + msg.len) msg.firstPartLen
              pdu2Consumed := true
              lenProcessed := w.lenProcessed }
  else if w.subfrm < pageSize then .crash
  else
    let header := read mem w.subfrm sizeofAmsduSubframe
    let msduLen := msduLen header
    let pld := w.subfrm + sizeofAmsduSubframe
    let subfrmLen := sizeofAmsduSubframe - sizeofLlcSnap + msduLen
    if msduLen > 1508 then .done
    else if w.subfrm + subfrmLen > w.tail then
      if w.pdu2Consumed then .done
      else
        let len0 := (w.tail - pld) % 2 ^ 16
        let len1 := sub16 (sub16 msduLen sizeofLlcSnap) len0
        afterFrame msg.len subfrmLen (amsduFrame header pld len0 pdu2 len1 pdu1 pdu2)
          { subfrm := pdu2 + len1 + (4 - subfrmLen % 4)
            tail := w.tail
            pdu2Consumed := true
            lenProcessed := w.lenProcessed }
    else
      let pldLen := sub16 msduLen sizeofLlcSnap
      afterFrame msg.len subfrmLen (amsduFrame header pld pldLen 0 0 pdu1 pdu2)
        { w with subfrm := pld + pldLen + (4 - subfrmLen % 4) }

/-- The frames handed on, and whether there was a bad access. -/
structure Handled where
  frames : List EthFrame
  crashed : Bool
  deriving DecidableEq

def Handled.cons (f : EthFrame) (r : Handled) : Handled := { r with frames := f :: r.frames }

/-- The loop; without a result when it does not end in as many turns. -/
def amsduLoop (mem : Mem) (copy : List UInt8) (pdu1 pdu2 : Nat) : Nat → Walk → Option Handled
  | 0, _ => none
  | turns + 1, w =>
    match amsduTurn mem copy pdu1 pdu2 w with
    | .done => some ⟨[], false⟩
    | .crash => some ⟨[], true⟩
    | .last f => some ⟨[f], false⟩
    | .oops f => some ⟨[f], true⟩
    | .more f w => (amsduLoop mem copy pdu1 pdu2 turns w).map (Handled.cons f)

def amsduSane (msg : TopMsg) (pdu2 : Nat) : Bool :=
  ((msg.hasTwin && pdu2 ≠ 0) || (!msg.hasTwin && pdu2 = 0)) &&
    msg.len ≤ sdRxBufLen * 2 - sizeofSdioTopMsg &&
    msg.firstPartLen ≤ sdRxBufLen - sizeofSdioTopMsg

def amsduStart (mem : Mem) (pdu1 : Nat) : Walk :=
  let msg := topMsg mem pdu1
  { subfrm := pdu1 + msg.pldOff
    tail := pdu1 + msg.pldOff + msg.firstPartLen
    pdu2Consumed := false
    lenProcessed := 0 }

def handleAmsduPdus (mem : Mem) (copy : List UInt8) (pdu1 pdu2 : Nat) : Option Handled :=
  if amsduSane (topMsg mem pdu1) pdu2 then
    amsduLoop mem copy pdu1 pdu2 (topMsg mem pdu1).len.succ (amsduStart mem pdu1)
  else some ⟨[], false⟩

/-! ## Batches -/

/-- A turn of the loop in `sdio_read_callback`: the PDUs of the batch that it
takes and what came of it. -/
structure Reading where
  pdus : List Nat
  result : Option Handled
  deriving DecidableEq

/-- The rest of the batch, after a turn that came to an end. -/
def Reading.andThen (r : Reading) (rest : List Reading × Option Nat) : List Reading × Option Nat :=
  match r.result with
  | some ⟨_, false⟩ => (r :: rest.1, rest.2)
  | _ => ([r], none)

/-- A PDU that holds one frame or command. -/
def singleFrame (mem : Mem) (pdu : Nat) : EthFrame :=
  let msg := topMsg mem pdu
  let pld := pdu + msg.pldOff
  { subtype := msg.subtype
    ethHdr := read mem pld sizeofEthHdr
    hdrAt := pld
    p1 := pld + sizeofEthHdr
    len1 := sub16 msg.len sizeofEthHdr
    p2 := 0
    len2 := 0
    lenOrig := msg.len
    pdu1 := pdu
    pdu2 := 0 }

/-- The loop of `sdio_read_callback` over the PDUs of a batch; `saved` is the
PDU that waits for its twin. The second result is the PDU saved at the end. -/
def readPdus (mem : Mem) (copy : List UInt8) : Option Nat → List Nat → List Reading × Option Nat
  | saved, [] => ([], saved)
  | some saved, pdu :: rest =>
    Reading.andThen ⟨[pdu], handleAmsduPdus mem copy saved pdu⟩ (readPdus mem copy none rest)
  | none, pdu :: rest =>
    let msg := topMsg mem pdu
    if ¬ msg.isAmsdu then
      if ¬ msg.len + msg.pldOff ≤ sdRxBufLen then ([⟨[pdu], some ⟨[], false⟩⟩], none)
      else
        Reading.andThen
          ⟨[pdu], some ⟨if msg.type = bf1bSdioMsgTypeEthFrame then [singleFrame mem pdu] else [],
            false⟩⟩
          (readPdus mem copy none rest)
    else if msg.hasTwin then
      match rest with
      | [] => ([⟨[pdu], some ⟨[], false⟩⟩], some pdu)
      | twin :: rest =>
        Reading.andThen ⟨[pdu, twin], handleAmsduPdus mem copy pdu twin⟩
          (readPdus mem copy none rest)
    else
      Reading.andThen ⟨[pdu], handleAmsduPdus mem copy pdu 0⟩ (readPdus mem copy none rest)

/-- A call of `sdio_read_callback`; `copy` is what the stack holds. -/
structure Batch where
  mem : Mem
  dataPtr : Nat
  numOfPdu : Nat
  copy : List UInt8

def Batch.pdus (b : Batch) : List Nat :=
  (List.range b.numOfPdu).map fun i => b.dataPtr + sdRxBufLen * i

/-- `saved_pdu` with its address and what it holds, and `saved_pdu_used`. -/
structure Host where
  savedPdu : Nat
  saved : Nat → UInt8
  savedPduUsed : Bool

/-- The memory with the contents of `saved_pdu`. -/
def Host.seen (h : Host) (mem : Mem) : Mem :=
  fun a => if h.savedPdu ≤ a ∧ a < h.savedPdu + sdRxBufLen then h.saved (a - h.savedPdu) else mem a

def Host.readings (h : Host) (b : Batch) : List Reading × Option Nat :=
  readPdus (h.seen b.mem) b.copy (if h.savedPduUsed then some h.savedPdu else none) b.pdus

def sdioReadCallback (h : Host) (b : Batch) : Host :=
  match (h.readings b).2 with
  | some pdu =>
    if h.savedPduUsed ∧ b.numOfPdu = 0 then h
    else { h with saved := fun i => h.seen b.mem (pdu + i), savedPduUsed := true }
  | none => { h with savedPduUsed := false }

end BouffaloSdk.SdioMsgHandlers
