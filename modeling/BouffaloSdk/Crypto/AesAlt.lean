import BouffaloSdk.Crypto.AesModes
import BouffaloSdk.Kit.Slice

/-!
# The AES modes on the engine

`mbedtls/port/hw_acc/aes_alt.c` and the link update of `bflb_sec_aes.c`. The engine works
as the mode, the direction, the key and the IV of its link descriptor say, on the number
of blocks that the descriptor's 16 bits give.
-/

namespace BouffaloSdk.Crypto
open Kit

/-- `AES_LINK_KEY_128BITS` and so on. -/
inductive AesLinkKey
  | bits128
  | bits192
  | bits256
  deriving DecidableEq, Repr

def AesLinkKey.bytes : AesLinkKey → Nat
  | .bits128 => 16
  | .bits192 => 24
  | .bits256 => 32

/-- `AES_MODE_ECB`, `AES_MODE_CTR` and `AES_MODE_CBC`. -/
inductive AesLinkMode
  | ecb
  | ctr
  | cbc
  deriving DecidableEq, Repr

/-- `struct bflb_aes_link_s`: `aesIv` for `aes_iv0` on, `aesKeyBytes` for `aes_key0` on. -/
structure BflbAesLink where
  aesKey : AesLinkKey
  aesDecEn : Bool
  aesMode : AesLinkMode
  aesMsglen : Nat
  aesIv : Block
  aesKeyBytes : List UInt8

structure MbedtlsAesContext where
  linkCtx : BflbAesLink

/-- A context of zeros. -/
def mbedtlsAesInit : MbedtlsAesContext where
  linkCtx := {
    aesKey := .bits128
    aesDecEn := false
    aesMode := .ecb
    aesMsglen := 0
    aesIv := fun _ => 0
    aesKeyBytes := List.replicate 32 0 }

def linkKeyOf (keybits : Nat) : Option AesLinkKey :=
  if keybits = 128 then some .bits128
  else if keybits = 192 then some .bits192
  else if keybits = 256 then some .bits256
  else none

/-- The key schedules differ in the direction that they set. -/
def aesSetkey (ctx : MbedtlsAesContext) (decEn : Bool) (key : List UInt8) (keybits : Nat) :
    MbedtlsAesContext × Int :=
  let link := { ctx.linkCtx with aesDecEn := decEn }
  match linkKeyOf keybits with
  | none => ({ linkCtx := link }, -1)
  | some aesKey =>
    ({ linkCtx := { link with
        aesKey := aesKey
        aesKeyBytes := blit link.aesKeyBytes 0 (key.take (keybits / 8)) } }, 0)

def mbedtlsAesSetkeyEnc (ctx : MbedtlsAesContext) (key : List UInt8) (keybits : Nat) :
    MbedtlsAesContext × Int := aesSetkey ctx false key keybits

def mbedtlsAesSetkeyDec (ctx : MbedtlsAesContext) (key : List UInt8) (keybits : Nat) :
    MbedtlsAesContext × Int := aesSetkey ctx true key keybits

/-- What the engine puts out for its descriptor. -/
def BflbAesLink.engine (cipher : Cipher) (link : BflbAesLink) (input : List UInt8) : List UInt8 :=
  let E := cipher (link.aesKeyBytes.take link.aesKey.bytes)
  let blocks := takeBlocks link.aesMsglen input
  match link.aesMode with
  | .ecb => bytesOf (blocks.map (if link.aesDecEn then E.symm else E))
  | .ctr => bytesOf ((ctr E Block.succ).run link.aesIv blocks)
  | .cbc =>
    bytesOf ((cbcMode E (if link.aesDecEn then .decrypt else .encrypt)).run link.aesIv blocks)

/-- `bflb_aes_link_update`; `aes_msglen` has 16 bits. -/
def bflbAesLinkUpdate (cipher : Cipher) (link : BflbAesLink) (input output : List UInt8) :
    BflbAesLink × List UInt8 :=
  if input.length % 16 ≠ 0 then (link, output)
  else
    let link := { link with aesMsglen := input.length / 16 % 2 ^ 16 }
    (link, blit output 0 (link.engine cipher input))

/-- What a call leaves: its result, the context, the caller's variable and the output buffer. -/
structure Crypt (S : Type) where
  ret : Int
  ctx : MbedtlsAesContext
  state : S
  output : List UInt8

/-- Both branches on the direction do the same; `iv` is read and not written. -/
def mbedtlsAesCryptCbc (cipher : Cipher) (ctx : MbedtlsAesContext) (_mode : AesMode) (iv : Block)
    (input output : List UInt8) : Crypt Block :=
  if input.length % 16 ≠ 0 then
    { ret := mbedtlsErrAesInvalidInputLength, ctx := ctx, state := iv, output := output }
  else
    let link := { ctx.linkCtx with aesMode := .cbc, aesIv := iv }
    let done := bflbAesLinkUpdate cipher link input output
    { ret := 0, ctx := { linkCtx := done.1 }, state := iv, output := done.2 }

/-- `nonce_counter` is read; it, `nc_off` and `stream_block` are not written. -/
def mbedtlsAesCryptCtr (cipher : Cipher) (ctx : MbedtlsAesContext) (st : CtrState)
    (input output : List UInt8) : Crypt CtrState :=
  if input.length % 16 ≠ 0 then
    { ret := mbedtlsErrAesInvalidInputLength, ctx := ctx, state := st, output := output }
  else
    let link := { ctx.linkCtx with aesMode := .ctr, aesIv := st.nonceCounter }
    let done := bflbAesLinkUpdate cipher link input output
    { ret := 0, ctx := { linkCtx := done.1 }, state := st, output := done.2 }

end BouffaloSdk.Crypto
