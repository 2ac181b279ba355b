import BouffaloSdk.Kit.LittleEndian
import BouffaloSdk.Kit.StreamMode
import Mathlib.Data.List.OfFn

/-!
# The AES modes in software

`mbedtls_aes_crypt_cbc` and `mbedtls_aes_crypt_ctr` of `mbedtls/library/aes.c`, over the
block function of a key. They write `iv`, `nonce_counter`, `nc_off` and `stream_block`
back, so that the next call goes on where this one stopped.
-/

namespace BouffaloSdk.Crypto
open Kit

/-- `unsigned char[16]`. -/
abbrev Block := Fin 16 → UInt8

namespace Block

def ofBytes (bytes : List UInt8) : Block := fun i => bytes.getD i 0

def toBytes (b : Block) : List UInt8 := List.ofFn b

/-- `block[n]`. -/
def byte (b : Block) (n : Nat) : UInt8 := b.toBytes.getD n 0

/-- `for( i = 16; i > 0; i-- ) if( ++counter[i - 1] != 0 ) break`, last byte first. -/
def increment : List UInt8 → List UInt8
  | [] => []
  | b :: bs => if b + 1 ≠ 0 then (b + 1) :: bs else (b + 1) :: increment bs

def succ (b : Block) : Block := ofBytes (increment b.toBytes.reverse).reverse

/-- The big-endian number in a block. -/
def value (b : Block) : Nat := ofLE b.toBytes.reverse

end Block

instance : Masking Block where
  mask b k := fun i => b i ^^^ k i
  mask_mask b k := funext fun i => by rw [UInt8.xor_assoc, UInt8.xor_self, UInt8.xor_zero]
  mask_inj b k l h := funext fun i => (UInt8.xor_right_inj (b i)).mp (congrFun h i)

/-- What the modes use of AES: for every key a permutation of the blocks. -/
abbrev Cipher := List UInt8 → Equiv.Perm Block

inductive AesMode
  | encrypt
  | decrypt
  deriving DecidableEq, Repr

def mbedtlsErrAesInvalidInputLength : Int := -0x0022
def mbedtlsErrAesBadInputData : Int := -0x0021

structure CbcResult where
  ret : Int
  iv : Block
  output : List UInt8

/-- The two loops over the blocks. -/
def cbcLoop (E : Equiv.Perm Block) (mode : AesMode) (iv : Block) (input : List UInt8) :
    List UInt8 × Block :=
  if input.length = 0 then ([], iv)
  else
    let block := Block.ofBytes (input.take 16)
    match mode with
    | .decrypt =>
      let rest := cbcLoop E mode block (input.drop 16)
      ((Masking.mask (E.symm block) iv).toBytes ++ rest.1, rest.2)
    | .encrypt =>
      let output := E (Masking.mask block iv)
      let rest := cbcLoop E mode output (input.drop 16)
      (output.toBytes ++ rest.1, rest.2)
termination_by input.length
decreasing_by
  all_goals
    rw [List.length_drop]
    omega

def softCryptCbc (E : Equiv.Perm Block) (mode : AesMode) (iv : Block) (input : List UInt8) :
    CbcResult :=
  if input.length % 16 ≠ 0 then
    { ret := mbedtlsErrAesInvalidInputLength, iv := iv, output := [] }
  else
    let (output, iv) := cbcLoop E mode iv input
    { ret := 0, iv := iv, output := output }

structure CtrState where
  ncOff : Nat
  nonceCounter : Block
  streamBlock : Block

/-- The state when a byte is encrypted: a new stream block where the last one is used up. -/
def CtrState.ready (E : Equiv.Perm Block) (st : CtrState) : CtrState :=
  if st.ncOff = 0 then
    { st with streamBlock := E st.nonceCounter, nonceCounter := st.nonceCounter.succ }
  else st

/-- One pass of the loop of `mbedtls_aes_crypt_ctr`. -/
def ctrBytes (E : Equiv.Perm Block) : StreamMode CtrState UInt8 UInt8 where
  out st c := c ^^^ (st.ready E).streamBlock.byte st.ncOff
  upd st _ := { st.ready E with ncOff := (st.ncOff + 1) &&& 0x0F }

structure CtrResult where
  ret : Int
  state : CtrState
  output : List UInt8

def softCryptCtr (E : Equiv.Perm Block) (st : CtrState) (input : List UInt8) : CtrResult :=
  if st.ncOff > 0x0F then { ret := mbedtlsErrAesBadInputData, state := st, output := [] }
  else { ret := 0, state := (ctrBytes E).next st input, output := (ctrBytes E).run st input }

/-! ## Blocks and bytes -/

namespace Block

variable {b c : Block} {l : List UInt8}

@[simp] theorem length_toBytes (b : Block) : b.toBytes.length = 16 := List.length_ofFn

theorem ofBytes_toBytes (b : Block) : ofBytes b.toBytes = b := by
  funext i
  rw [ofBytes, toBytes, List.getD_eq_getElem?_getD, List.getElem?_ofFn, dif_pos i.isLt]
  rfl

theorem toBytes_ofBytes (h : l.length = 16) : (ofBytes l).toBytes = l := by
  apply List.ext_getElem
  · rw [length_toBytes, h]
  · intro i hi hi'
    simp only [toBytes, List.getElem_ofFn, ofBytes, List.getD_eq_getElem?_getD,
      List.getElem?_eq_getElem hi', Option.getD_some]

theorem toBytes_inj (h : b.toBytes = c.toBytes) : b = c := by
  rw [← ofBytes_toBytes b, h, ofBytes_toBytes]

theorem length_increment (l : List UInt8) : (increment l).length = l.length := by
  induction l with
  | nil => rfl
  | cons b bs ih =>
    unfold increment
    split
    · rfl
    · rw [List.length_cons, ih, List.length_cons]

theorem ofLE_increment (l : List UInt8) : ofLE (increment l) = (ofLE l + 1) % 256 ^ l.length := by
  induction l with
  | nil => rfl
  | cons b bs ih =>
    have hb := b.toNat_lt
    have hlow : (b + 1).toNat = (b.toNat + 1) % 256 := UInt8.toNat_add b 1
    have hbs := ofLE_lt bs
    have hpow : 256 ^ (bs.length + 1) = 256 * 256 ^ bs.length := Nat.pow_succ'
    unfold increment
    by_cases hzero : b + 1 = 0
    · have hfull : b.toNat = 255 := by
        have hz : (b + 1).toNat = 0 := by rw [hzero]; rfl
        omega
      rw [if_neg (not_not.mpr hzero), ofLE, ofLE, ih, hlow, hfull, List.length_cons, hpow,
        show 255 + 256 * ofLE bs + 1 = 256 * (ofLE bs + 1) by omega, Nat.mul_mod_mul_left]
      omega
    · have hnot : (b.toNat + 1) % 256 ≠ 0 := fun hz => hzero (UInt8.toNat_inj.mp (by rw [hlow, hz]; rfl))
      rw [if_pos hzero, ofLE, ofLE, hlow, List.length_cons, hpow, Nat.mod_eq_of_lt (by omega),
        Nat.mod_eq_of_lt (by omega)]
      omega

theorem value_lt (b : Block) : b.value < 2 ^ 128 := by
  have h := ofLE_lt b.toBytes.reverse
  rw [List.length_reverse, length_toBytes] at h
  exact h

theorem value_inj (h : b.value = c.value) : b = c := by
  have hlen : b.toBytes.reverse.length = c.toBytes.reverse.length := by simp
  have hb := toLE_ofLE b.toBytes.reverse
  have hc := toLE_ofLE c.toBytes.reverse
  rw [show ofLE b.toBytes.reverse = ofLE c.toBytes.reverse from h, hlen, hc] at hb
  exact toBytes_inj (List.reverse_injective hb.symm)

/-- The loop adds one to the number in the counter. -/
theorem value_succ (b : Block) : b.succ.value = (b.value + 1) % 2 ^ 128 := by
  have hlen : (increment b.toBytes.reverse).reverse.length = 16 := by
    rw [List.length_reverse, length_increment, List.length_reverse, length_toBytes]
  rw [value, succ, toBytes_ofBytes hlen, List.reverse_reverse, ofLE_increment, List.length_reverse,
    length_toBytes]
  rfl

theorem value_iterate_succ (b : Block) (n : Nat) :
    (succ^[n] b).value = (b.value + n) % 2 ^ 128 := by
  induction n with
  | zero => rw [Function.iterate_zero_apply, Nat.add_zero, Nat.mod_eq_of_lt b.value_lt]
  | succ n ih => rw [Function.iterate_succ_apply', value_succ, ih, Nat.mod_add_mod, Nat.add_assoc]

/-- A counter does not come back for `2 ^ 128` blocks. -/
theorem iterate_succ_eq_self {n : Nat} (hn : n < 2 ^ 128) (h : succ^[n] b = b) : n = 0 := by
  have hvalue := congrArg value h
  rw [value_iterate_succ] at hvalue
  have hlt := b.value_lt
  omega

end Block

def bytesOf (bs : List Block) : List UInt8 := bs.flatMap Block.toBytes

/-- The first `n` blocks of a buffer. -/
def takeBlocks : Nat → List UInt8 → List Block
  | 0, _ => []
  | n + 1, l => Block.ofBytes (l.take 16) :: takeBlocks n (l.drop 16)

variable {E : Equiv.Perm Block} {iv b : Block} {bs : List Block} {l : List UInt8} {st : CtrState}

@[simp] theorem bytesOf_cons (b : Block) (bs : List Block) :
    bytesOf (b :: bs) = b.toBytes ++ bytesOf bs := rfl

@[simp] theorem length_bytesOf (bs : List Block) : (bytesOf bs).length = 16 * bs.length := by
  induction bs with
  | nil => rfl
  | cons b bs ih =>
    rw [bytesOf_cons, List.length_append, Block.length_toBytes, ih, List.length_cons]
    omega

theorem bytesOf_append (bs cs : List Block) : bytesOf (bs ++ cs) = bytesOf bs ++ bytesOf cs :=
  List.flatMap_append

theorem flatten_map_bytesOf (pieces : List (List Block)) :
    (pieces.map bytesOf).flatten = bytesOf pieces.flatten := by
  induction pieces with
  | nil => rfl
  | cons bs pieces ih => rw [List.map_cons, List.flatten_cons, ih, List.flatten_cons, bytesOf_append]

theorem bytesOf_inj {cs : List Block} (h : bytesOf bs = bytesOf cs) : bs = cs := by
  have hlen := congrArg List.length h
  rw [length_bytesOf, length_bytesOf] at hlen
  induction bs generalizing cs with
  | nil => exact (List.eq_nil_of_length_eq_zero (by simpa using hlen.symm)).symm
  | cons b bs ih =>
    cases cs with
    | nil => simp at hlen
    | cons c cs =>
      obtain ⟨hfirst, hrest⟩ := List.append_inj h (by simp)
      rw [Block.toBytes_inj hfirst, ih hrest (by simpa using hlen)]

theorem takeBlocks_bytesOf (bs : List Block) (rest : List UInt8) :
    takeBlocks bs.length (bytesOf bs ++ rest) = bs := by
  induction bs with
  | nil => rfl
  | cons b bs ih =>
    rw [List.length_cons, takeBlocks, bytesOf_cons, List.append_assoc,
      List.take_left' (Block.length_toBytes b), List.drop_left' (Block.length_toBytes b), ih,
      Block.ofBytes_toBytes]

/-- A message of whole blocks is the bytes of some blocks. -/
theorem exists_bytesOf (h : l.length % 16 = 0) : ∃ bs, l = bytesOf bs := by
  induction hn : l.length / 16 generalizing l with
  | zero =>
    have hnil : l = [] := List.eq_nil_of_length_eq_zero (by omega)
    exact ⟨[], hnil⟩
  | succ n ih =>
    have htake : (l.take 16).length = 16 := by
      rw [List.length_take]
      omega
    have hdrop : (l.drop 16).length = l.length - 16 := List.length_drop
    obtain ⟨bs, hbs⟩ := @ih (l.drop 16) (by omega) (by omega)
    refine ⟨Block.ofBytes (l.take 16) :: bs, ?_⟩
    rw [bytesOf_cons, Block.toBytes_ofBytes htake, ← hbs, List.take_append_drop]

/-! ## The modes -/

def cbcMode (E : Equiv.Perm Block) : AesMode → StreamMode Block Block Block
  | .encrypt => cbcEnc E
  | .decrypt => cbcDec E

theorem cbcLoop_bytesOf (E : Equiv.Perm Block) (mode : AesMode) (iv : Block) (bs : List Block) :
    cbcLoop E mode iv (bytesOf bs) =
      (bytesOf ((cbcMode E mode).run iv bs), (cbcMode E mode).next iv bs) := by
  induction bs generalizing iv with
  | nil =>
    rw [cbcLoop, if_pos (show (bytesOf []).length = 0 from rfl)]
    rfl
  | cons b bs ih =>
    have hne : (bytesOf (b :: bs)).length ≠ 0 := by
      rw [length_bytesOf, List.length_cons]
      omega
    have htake : (bytesOf (b :: bs)).take 16 = b.toBytes :=
      List.take_left' (Block.length_toBytes b)
    have hdrop : (bytesOf (b :: bs)).drop 16 = bytesOf bs := List.drop_left' (Block.length_toBytes b)
    rw [cbcLoop, if_neg hne, htake, hdrop, Block.ofBytes_toBytes]
    cases mode with
    | encrypt => simp only [ih]; rfl
    | decrypt => simp only [ih]; rfl

/-- Sixteen passes of the loop use up one stream block. -/
theorem ctrBytes_block (hst : st.ncOff = 0) (b : Block) :
    (ctrBytes E).run st b.toBytes = (Masking.mask b (E st.nonceCounter)).toBytes ∧
      (ctrBytes E).next st b.toBytes =
        { ncOff := 0, nonceCounter := st.nonceCounter.succ, streamBlock := E st.nonceCounter } := by
  obtain ⟨ncOff, nonceCounter, streamBlock⟩ := st
  subst hst
  constructor
  · simp [StreamMode.run, ctrBytes, CtrState.ready, Block.toBytes, List.ofFn_succ, Block.byte,
      Masking.mask]
  · simp [StreamMode.next, ctrBytes, CtrState.ready, Block.toBytes, List.ofFn_succ]

theorem ctrBytes_bytesOf (hst : st.ncOff = 0) (bs : List Block) :
    (ctrBytes E).run st (bytesOf bs) = bytesOf ((ctr E Block.succ).run st.nonceCounter bs) := by
  induction bs generalizing st with
  | nil => rfl
  | cons b bs ih =>
    obtain ⟨hrun, hnext⟩ := ctrBytes_block (E := E) hst b
    rw [bytesOf_cons, StreamMode.run_append, hrun, hnext, ih rfl]
    rfl

theorem softCryptCbc_bytesOf (E : Equiv.Perm Block) (mode : AesMode) (iv : Block)
    (bs : List Block) :
    softCryptCbc E mode iv (bytesOf bs) =
      { ret := 0, iv := (cbcMode E mode).next iv bs
        output := bytesOf ((cbcMode E mode).run iv bs) } := by
  have hlen : (bytesOf bs).length % 16 = 0 := by
    rw [length_bytesOf]
    omega
  rw [softCryptCbc, if_neg (not_not.mpr hlen), cbcLoop_bytesOf]

/-- The software goes on where it stopped: pieces of whole blocks give what one call gives. -/
theorem softCryptCbc_append (mode : AesMode) (hl : l.length % 16 = 0) {l' : List UInt8}
    (hl' : l'.length % 16 = 0) :
    (softCryptCbc E mode iv (l ++ l')).output = (softCryptCbc E mode iv l).output ++
      (softCryptCbc E mode (softCryptCbc E mode iv l).iv l').output := by
  obtain ⟨bs, rfl⟩ := exists_bytesOf hl
  obtain ⟨cs, rfl⟩ := exists_bytesOf hl'
  rw [← bytesOf_append, softCryptCbc_bytesOf, softCryptCbc_bytesOf, softCryptCbc_bytesOf,
    StreamMode.run_append, bytesOf_append]

/-- The software's CTR goes on where it stopped, in the middle of a block too. -/
theorem softCryptCtr_append (hst : st.ncOff ≤ 0x0F) (l l' : List UInt8) :
    (softCryptCtr E st (l ++ l')).output = (softCryptCtr E st l).output ++
      (softCryptCtr E (softCryptCtr E st l).state l').output := by
  have hnext : ((ctrBytes E).next st l).ncOff ≤ 0x0F := by
    induction l generalizing st with
    | nil => exact hst
    | cons c l ih => exact ih Nat.and_le_right
  unfold softCryptCtr
  rw [if_neg (Nat.not_lt.mpr hst), if_neg (Nat.not_lt.mpr hst), if_neg (Nat.not_lt.mpr hnext)]
  exact (ctrBytes E).run_append

end BouffaloSdk.Crypto
