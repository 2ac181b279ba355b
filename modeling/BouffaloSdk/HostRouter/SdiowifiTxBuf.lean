import BouffaloSdk.Kit.Linked
import BouffaloSdk.Kit.Word

/-!
# Transmit buffers of the SDIO device

`sdiowifi_tx_buf.c`, with the list of `utils_list.c` that holds the buffers
that are not in use. Buffers are known by the address of their context.
-/

namespace BouffaloSdk.SdiowifiTxBuf
open Kit.Word

def txPbufFrameLen : Nat := 1514

/-- What a build settles: the headroom of lwIP, which is a whole number of
words, the size and the place of the static contexts and of their payloads.
The contexts lie in the address space. -/
structure Config where
  linkEncapsulationHlen : Nat
  txPbufSize : Nat
  normalBufferCount : Nat
  txpbufContext : Nat
  txpbufPayloadNormal : Nat
  headroom_aligned : linkEncapsulationHlen % 4 = 0
  headroom_le : linkEncapsulationHlen ≤ 2 ^ 15
  size_pos : 0 < txPbufSize
  size_le : txPbufSize ≤ txPbufFrameLen
  context_pos : 0 < txpbufContext
  context_fits : txpbufContext + normalBufferCount * txPbufSize ≤ 2 ^ 32

variable (c : Config)

namespace Config

def payloadLen : Nat := c.linkEncapsulationHlen + txPbufFrameLen

/-- `sizeof(sdio_txbuf_payload_t)`. -/
def payloadSize : Nat := (c.payloadLen + 3) / 4 * 4

end Config

/-- `ALIGN_PTR_PADD` and `ALIGN_PTR_HIGH` on 32-bit addresses. -/
def alignPtrPadd (x : Nat) : Nat := (4 - x % 4) % 4
def alignPtrHigh (x : Nat) : Nat := add32 x 3 / 4 * 4

/-- `struct sdiowifi_tx_buf` with the links and payloads of the contexts;
`critical` is how deep the caller is in critical sections, `credit` what the
host was told last and `prevent` what the hook for the sleep was. -/
structure TxBuf where
  first : Nat
  last : Nat
  next : Nat → Nat
  payloadBuf : Nat → Nat
  windowSize : Nat
  freeSize : Nat
  unaSeq : Nat
  critical : Nat
  credit : Nat
  prevent : Bool

namespace TxBuf

def enterCritical (tb : TxBuf) : TxBuf := { tb with critical := tb.critical + 1 }
def exitCritical (tb : TxBuf) : TxBuf := { tb with critical := tb.critical - 1 }

/-- `utils_list_push_back`. -/
def pushBack (tb : TxBuf) (hdr : Nat) : TxBuf :=
  { tb with
    first := if tb.first = 0 then hdr else tb.first
    next := Function.update
      (if tb.first = 0 then tb.next else Function.update tb.next tb.last hdr) hdr 0
    last := hdr }

/-- `utils_list_pop_front`, 0 for none. -/
def popFront (tb : TxBuf) : TxBuf × Nat :=
  if tb.first = 0 then (tb, 0) else ({ tb with first := tb.next tb.first }, tb.first)

/-- `sdiowifi_tx_buf_init`. -/
def init (tb : TxBuf) : TxBuf :=
  { tb.enterCritical with first := 0, last := 0, unaSeq := 0, freeSize := 0 }.exitCritical

/-- `sdiowifi_tx_buf_update_credit`. -/
def updateCredit (tb : TxBuf) : TxBuf := { tb with credit := add32 tb.unaSeq tb.windowSize }

/-- A context with its payload joins the list. -/
def register (tb : TxBuf) (hdr payload : Nat) : TxBuf :=
  let tb := { tb with payloadBuf := Function.update tb.payloadBuf hdr payload }.pushBack hdr
  { tb with freeSize := add32 tb.freeSize 1 }

/-- `n` contexts from `ctx` on with the payloads from `p` on. -/
def registerAll (tb : TxBuf) (ctx p n : Nat) : TxBuf :=
  (List.range n).foldl
    (fun tb i => tb.register (ctx + c.txPbufSize * i) (p + c.payloadSize * i)) tb

/-- `sdiowifi_tx_buf_lpmem_register`. -/
def lpmemRegister (tb : TxBuf) : TxBuf :=
  let tb := tb.enterCritical.registerAll c c.txpbufContext c.txpbufPayloadNormal c.normalBufferCount
  { tb with windowSize := tb.freeSize }.exitCritical.updateCredit

/-- The count that `sdiowifi_tx_buf_mem_register` makes of a size. -/
def txCount (mem size : Nat) : Nat := sub32 size (alignPtrPadd mem) / c.payloadSize

/-- The size that it asks `pvPortMalloc` for. -/
def mallocSize (mem size : Nat) : Nat := mul32 (txCount c mem size) c.txPbufSize

/-- `sdiowifi_tx_buf_mem_register`; `malloc` is what `pvPortMalloc` returns. -/
def memRegister (tb : TxBuf) (mem size : Nat) (malloc : Option Nat) : TxBuf × Int :=
  if mem = 0 then (tb, 0)
  else
    let tb := tb.enterCritical
    if txCount c mem size = 0 then (tb, -1)
    else
      match malloc with
      | none => (tb, -1)
      | some txBufferCtx =>
        let tb := tb.registerAll c txBufferCtx (alignPtrHigh mem) (txCount c mem size)
        ({ tb with windowSize := tb.freeSize }.exitCritical.updateCredit, 0)

/-- `sdiowifi_tx_buf_is_all_free`. -/
def isAllFree (tb : TxBuf) : TxBuf × Bool :=
  (tb.enterCritical.exitCritical, tb.windowSize = tb.freeSize)

def notifyTxBufStatus (tb : TxBuf) : TxBuf := { tb.isAllFree.1 with prevent := !tb.isAllFree.2 }

/-- `tx_buf_free`. -/
def free (tb : TxBuf) (tp : Nat) : TxBuf :=
  let tb := tb.enterCritical.pushBack tp
  { tb with
    freeSize := add32 tb.freeSize 1
    unaSeq := add32 tb.unaSeq 1 }.updateCredit.exitCritical.notifyTxBufStatus

/-- `pbuf_alloced_custom` finds room for the frame behind its headroom. -/
def pbufAllocedCustom (tp : Nat) : Option Nat :=
  if (c.linkEncapsulationHlen + 3) / 4 * 4 + txPbufFrameLen > c.payloadLen then none else some tp

/-- `sdiowifi_tx_buf_alloc`. -/
def alloc (tb : TxBuf) : TxBuf × Option Nat :=
  let (tb, tp) := tb.enterCritical.popFront
  let tb := if tp ≠ 0 then { tb with freeSize := sub32 tb.freeSize 1 } else tb
  let p := if tp ≠ 0 then pbufAllocedCustom c tp else none
  (tb.exitCritical.notifyTxBufStatus, p)

end TxBuf

end BouffaloSdk.SdiowifiTxBuf
