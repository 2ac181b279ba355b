import BouffaloSdk.Kit.BlockStream
import BouffaloSdk.Kit.LittleEndian
import Mathlib.Data.Nat.Bitwise

/-!
# The SHA engine

`bflb_sec_sha.c`: a message is buffered up to whole blocks, which the engine
fetches. What the engine takes is recorded block by block, each with whether it
starts a new hash. The engine comes to the end of a run before the driver
would give up on it; the digest registers are left out.
-/

namespace BouffaloSdk.BflbSecSha
open Kit Kit.BlockStream

/-- `sha1` also stands for SHA-224 and SHA-256, `sha512` for SHA-384. -/
inductive Kind
  | sha1
  | sha512
  deriving DecidableEq, Repr

def Kind.blockSize : Kind → Nat
  | .sha1 => 64
  | .sha512 => 128

/-- The width of a counter of bytes, of which there are two. -/
def Kind.width : Kind → Nat
  | .sha1 => 32
  | .sha512 => 64

/-- The bytes of the length field. -/
def Kind.lenSize (kind : Kind) : Nat := kind.blockSize / 8

abbrev Block := List UInt8

/-- A context and what the engine was handed. `shaFeed` is in the link context
the bit that has the next run go on from the last hash. -/
structure Ctx where
  total0 : Nat
  total1 : Nat
  shaBuf : List UInt8
  shaPadding : List UInt8
  shaFeed : Bool
  engine : List (Bool × Block)
  deriving DecidableEq, Repr

/-- A run over `msgLen` blocks; the first one starts a new hash unless the run
goes on from the last. -/
def engineRun (n : Nat) (engine : List (Bool × Block)) (goesOn : Bool) :
    (msgLen : Nat) → List UInt8 → List (Bool × Block)
  | 0, _ => engine
  | msgLen + 1, data =>
    engineRun n (engine ++ [(!goesOn, data.take n)]) true msgLen (data.drop n)

/-- The field that takes the number of blocks. -/
def msgLenField (fill : Nat) : Nat := fill % 2 ^ 16

def shaStart (kind : Kind) : Ctx where
  total0 := 0
  total1 := 0
  shaBuf := List.replicate kind.blockSize 0
  shaPadding := 0x80 :: List.replicate (kind.blockSize - 1) 0
  shaFeed := false
  engine := []

/-- The whole blocks of `input`, and the copy of what remains to `left`. -/
def shaDrain (kind : Kind) (ctx : Ctx) (left : Nat) (input : List UInt8) : Ctx :=
  let n := kind.blockSize
  let fill := input.length / n % 2 ^ 32
  let len := input.length % n
  let (ctx, input) :=
    if fill > 0 then
      ({ ctx with
        engine := engineRun n ctx.engine ctx.shaFeed (msgLenField fill) input
        shaFeed := true }, input.drop (fill * n % 2 ^ 32))
    else (ctx, input)
  if len > 0 then { ctx with shaBuf := blit ctx.shaBuf left (input.take len) } else ctx

def shaUpdate (kind : Kind) (ctx : Ctx) (input : List UInt8) : Ctx :=
  if input.length = 0 then ctx
  else
    let n := kind.blockSize
    let left := ctx.total0 &&& (n - 1)
    let fill := n - left
    let total0 := (ctx.total0 + input.length) % 2 ^ kind.width
    let total1 := if total0 < input.length then (ctx.total1 + 1) % 2 ^ kind.width else ctx.total1
    let ctx := { ctx with total0, total1 }
    if left ≠ 0 ∧ input.length ≥ fill then
      let shaBuf := blit ctx.shaBuf left (input.take fill)
      let engine := engineRun n ctx.engine ctx.shaFeed 1 shaBuf
      shaDrain kind { ctx with shaBuf, engine, shaFeed := true } 0 (input.drop fill)
    else shaDrain kind ctx left input

/-- The length in bits, as its two halves. -/
def msgLen (kind : Kind) (ctx : Ctx) : List UInt8 :=
  let w := kind.width
  let high := (ctx.total0 >>> (w - 3)) ||| (ctx.total1 <<< 3) % 2 ^ w
  let low := (ctx.total0 <<< 3) % 2 ^ w
  toBE (w / 8) high ++ toBE (w / 8) low

def padn (kind : Kind) (ctx : Ctx) : Nat :=
  let n := kind.blockSize
  let last := ctx.total0 &&& (n - 1)
  if last < n - kind.lenSize then n - kind.lenSize - last else 2 * n - kind.lenSize - last

def shaFinish (kind : Kind) (ctx : Ctx) : Ctx :=
  let msgLen := msgLen kind ctx
  let ctx := shaUpdate kind ctx (ctx.shaPadding.take (padn kind ctx))
  let ctx := { ctx with shaPadding := blit ctx.shaPadding 0 msgLen }
  shaUpdate kind ctx (ctx.shaPadding.take kind.lenSize)

/-- The length goes in from its own buffer, and the next run is a new hash. -/
def shaLinkFinish (kind : Kind) (ctx : Ctx) : Ctx :=
  let msgLen := msgLen kind ctx
  let ctx := shaUpdate kind ctx (ctx.shaPadding.take (padn kind ctx))
  let ctx := shaUpdate kind ctx msgLen
  { ctx with shaFeed := false }

/-! ## The functions of the driver -/

def bflbSha1Start : Ctx := shaStart .sha1
def bflbSha256Start : Ctx := bflbSha1Start
def bflbSha512Start : Ctx := shaStart .sha512
def bflbSha1LinkStart : Ctx := shaStart .sha1
def bflbSha256LinkStart : Ctx := shaStart .sha1
def bflbSha512LinkStart : Ctx := shaStart .sha512

def bflbSha1Update : Ctx → List UInt8 → Ctx := shaUpdate .sha1
def bflbSha256Update : Ctx → List UInt8 → Ctx := bflbSha1Update
def bflbSha512Update : Ctx → List UInt8 → Ctx := shaUpdate .sha512
def bflbSha1LinkUpdate : Ctx → List UInt8 → Ctx := shaUpdate .sha1
def bflbSha256LinkUpdate : Ctx → List UInt8 → Ctx := bflbSha1LinkUpdate
def bflbSha512LinkUpdate : Ctx → List UInt8 → Ctx := shaUpdate .sha512

def bflbSha1Finish : Ctx → Ctx := shaFinish .sha1
def bflbSha256Finish : Ctx → Ctx := bflbSha1Finish
def bflbSha512Finish : Ctx → Ctx := shaFinish .sha512
def bflbSha1LinkFinish : Ctx → Ctx := shaLinkFinish .sha1
def bflbSha256LinkFinish : Ctx → Ctx := bflbSha1LinkFinish
def bflbSha512LinkFinish : Ctx → Ctx := shaLinkFinish .sha512

inductive Api
  | sha1
  | sha256
  | sha512
  | sha1Link
  | sha256Link
  | sha512Link
  deriving DecidableEq, Repr

def Api.kind : Api → Kind
  | .sha1 | .sha256 | .sha1Link | .sha256Link => .sha1
  | .sha512 | .sha512Link => .sha512

def Api.start : Api → Ctx
  | .sha1 => bflbSha1Start
  | .sha256 => bflbSha256Start
  | .sha512 => bflbSha512Start
  | .sha1Link => bflbSha1LinkStart
  | .sha256Link => bflbSha256LinkStart
  | .sha512Link => bflbSha512LinkStart

def Api.update : Api → Ctx → List UInt8 → Ctx
  | .sha1 => bflbSha1Update
  | .sha256 => bflbSha256Update
  | .sha512 => bflbSha512Update
  | .sha1Link => bflbSha1LinkUpdate
  | .sha256Link => bflbSha256LinkUpdate
  | .sha512Link => bflbSha512LinkUpdate

def Api.finish : Api → Ctx → Ctx
  | .sha1 => bflbSha1Finish
  | .sha256 => bflbSha256Finish
  | .sha512 => bflbSha512Finish
  | .sha1Link => bflbSha1LinkFinish
  | .sha256Link => bflbSha256LinkFinish
  | .sha512Link => bflbSha512LinkFinish

/-- What the engine is handed for a message that comes in chunks. -/
def streamed (api : Api) (chunks : List (List UInt8)) : List (Bool × Block) :=
  (api.finish (chunks.foldl api.update api.start)).engine

end BouffaloSdk.BflbSecSha
