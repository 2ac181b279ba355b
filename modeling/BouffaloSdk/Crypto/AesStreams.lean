import BouffaloSdk.Crypto.AesAlt

/-!
# A message in several calls

The caller keeps `iv`, or `nonce_counter`, `nc_off` and `stream_block`, between the calls.
The engine's functions leave these as they are, so that every call starts the mode again.
-/

namespace BouffaloSdk.Crypto
open Kit

/-- A key of one of the three sizes. -/
structure AesKey where
  bytes : List UInt8
  valid : bytes.length = 16 ∨ bytes.length = 24 ∨ bytes.length = 32

/-- The two buffers of a call. -/
structure Buffers where
  input : List UInt8
  output : List UInt8
  same : output.length = input.length

/-- A context whose key is scheduled for the direction. -/
def keyed (key : AesKey) : AesMode → MbedtlsAesContext
  | .encrypt => (mbedtlsAesSetkeyEnc mbedtlsAesInit key.bytes (8 * key.bytes.length)).1
  | .decrypt => (mbedtlsAesSetkeyDec mbedtlsAesInit key.bytes (8 * key.bytes.length)).1

section
variable {S : Type} (crypt : MbedtlsAesContext → S → List UInt8 → List UInt8 → Crypt S)

/-- The results and the outputs of calls that pass the context and the state on. -/
def callsOf : MbedtlsAesContext → S → List Buffers → List (Int × List UInt8)
  | _, _, [] => []
  | ctx, st, b :: calls =>
    let r := crypt ctx st b.input b.output
    (r.ret, r.output) :: callsOf r.ctx r.state calls

/-- The chunks in turn and the whole message in one call succeed and give `expected`,
whatever the output buffers held. -/
def Streams (ctx : MbedtlsAesContext) (st : S) (chunks : List (List UInt8))
    (expected : List UInt8) : Prop :=
  ∀ calls : List Buffers, ∀ whole : Buffers,
    calls.map Buffers.input = chunks → whole.input = chunks.flatten →
    (∀ r ∈ callsOf crypt ctx st calls, r.1 = 0) ∧
      (callsOf crypt ctx st calls).flatMap Prod.snd = expected ∧
      (crypt ctx st whole.input whole.output).ret = 0 ∧
      (crypt ctx st whole.input whole.output).output = expected

end

def CbcStreams (cipher : Cipher) (key : AesKey) (mode : AesMode) (iv : Block)
    (chunks : List (List UInt8)) : Prop :=
  Streams (fun ctx iv => mbedtlsAesCryptCbc cipher ctx mode iv) (keyed key mode) iv chunks
    (softCryptCbc (cipher key.bytes) mode iv chunks.flatten).output

/-- A stream begins at offset 0, whatever the stream block holds. -/
def CtrStreams (cipher : Cipher) (key : AesKey) (nonceCounter streamBlock : Block)
    (chunks : List (List UInt8)) : Prop :=
  let st : CtrState := { ncOff := 0, nonceCounter := nonceCounter, streamBlock := streamBlock }
  Streams (fun ctx st => mbedtlsAesCryptCtr cipher ctx st) (keyed key .encrypt) st chunks
    (softCryptCtr (cipher key.bytes) st chunks.flatten).output

/-- Decrypting what encrypting put out gives the message. -/
def CbcUndone (cipher : Cipher) (key : AesKey) (iv : Block) (message : List UInt8) : Prop :=
  ∀ enc dec : Buffers, enc.input = message →
    dec.input =
      (mbedtlsAesCryptCbc cipher (keyed key .encrypt) .encrypt iv enc.input enc.output).output →
    (mbedtlsAesCryptCbc cipher (keyed key .decrypt) .decrypt iv dec.input dec.output).output =
      message

/-- The blocks fit in 16 bits, and before every later chunk the software's chaining value
happens to be the first one. -/
structure CbcSafe (cipher : Cipher) (key : AesKey) (mode : AesMode) (iv : Block)
    (chunks : List (List UInt8)) : Prop where
  small : chunks.flatten.length < 16 * 2 ^ 16
  back : ∀ pre c post, chunks = pre ++ c :: post → c ≠ [] →
    (softCryptCbc (cipher key.bytes) mode iv pre.flatten).iv = iv

/-- Whole blocks that fit in 16 bits, all of them in one chunk. -/
structure CtrSafe (chunks : List (List UInt8)) : Prop where
  small : chunks.flatten.length < 16 * 2 ^ 16
  aligned : ∀ c ∈ chunks, c.length % 16 = 0
  single : ∀ pre c post, chunks = pre ++ c :: post → c ≠ [] → pre.flatten = []

/-! ## One call -/

variable {cipher : Cipher} {key : AesKey} {mode : AesMode} {ctx : MbedtlsAesContext}
  {iv : Block} {bs : List Block} {output : List UInt8}

/-- What the calls keep of the context. -/
structure Bound (key : AesKey) (mode : AesMode) (ctx : MbedtlsAesContext) : Prop where
  key_eq : ctx.linkCtx.aesKeyBytes.take ctx.linkCtx.aesKey.bytes = key.bytes
  dir_eq : (if ctx.linkCtx.aesDecEn then AesMode.decrypt else .encrypt) = mode

theorem linkKeyOf_valid (key : AesKey) :
    ∃ aesKey, linkKeyOf (8 * key.bytes.length) = some aesKey ∧ aesKey.bytes = key.bytes.length := by
  rcases key.valid with h | h | h
  · exact ⟨.bits128, by rw [h]; rfl, h.symm⟩
  · exact ⟨.bits192, by rw [h]; rfl, h.symm⟩
  · exact ⟨.bits256, by rw [h]; rfl, h.symm⟩

theorem bound_keyed (key : AesKey) (mode : AesMode) : Bound key mode (keyed key mode) := by
  obtain ⟨aesKey, hkey, hlen⟩ := linkKeyOf_valid key
  have hbytes : (blit (List.replicate 32 (0 : UInt8)) 0
      (key.bytes.take (8 * key.bytes.length / 8))).take aesKey.bytes = key.bytes := by
    rw [Nat.mul_div_cancel_left _ (by decide), List.take_length, hlen, blit, List.take_zero,
      List.nil_append, List.take_left]
  cases mode with
  | encrypt =>
    constructor
    · simp only [keyed, mbedtlsAesSetkeyEnc, aesSetkey, hkey]
      exact hbytes
    · simp only [keyed, mbedtlsAesSetkeyEnc, aesSetkey, hkey]
      rfl
  | decrypt =>
    constructor
    · simp only [keyed, mbedtlsAesSetkeyDec, aesSetkey, hkey]
      exact hbytes
    · simp only [keyed, mbedtlsAesSetkeyDec, aesSetkey, hkey]
      rfl

theorem takeBlocks_of_le {n : Nat} (h : n ≤ bs.length) : takeBlocks n (bytesOf bs) = bs.take n := by
  have hsplit : bytesOf bs = bytesOf (bs.take n) ++ bytesOf (bs.drop n) := by
    rw [← bytesOf_append, List.take_append_drop]
  have hlen : (bs.take n).length = n := by
    rw [List.length_take]
    omega
  have htake := takeBlocks_bytesOf (bs.take n) (bytesOf (bs.drop n))
  rwa [hlen, ← hsplit] at htake

/-- A call of `crypt` in the state `st` runs the mode `M` from `s`, on the blocks that 16
bits count, and leaves the state as it was. -/
structure Frozen {S : Type} (crypt : MbedtlsAesContext → S → List UInt8 → List UInt8 → Crypt S)
    (inv : MbedtlsAesContext → Prop) (st : S) (M : StreamMode Block Block Block) (s : Block) :
    Prop where
  call : ∀ ctx bs output, inv ctx →
    (crypt ctx st (bytesOf bs) output).ret = 0 ∧
      (crypt ctx st (bytesOf bs) output).output =
        blit output 0 (bytesOf (M.run s (bs.take (bs.length % 2 ^ 16)))) ∧
      (crypt ctx st (bytesOf bs) output).state = st ∧
      inv (crypt ctx st (bytesOf bs) output).ctx

theorem bflbAesLinkUpdate_bytesOf (cipher : Cipher) (link : BflbAesLink)
    (M : StreamMode Block Block Block)
    (mode : ∀ n input, ({ link with aesMsglen := n } : BflbAesLink).engine cipher input =
      bytesOf (M.run link.aesIv (takeBlocks n input))) (bs : List Block) (output : List UInt8) :
    bflbAesLinkUpdate cipher link (bytesOf bs) output =
      ({ link with aesMsglen := bs.length % 2 ^ 16 },
        blit output 0 (bytesOf (M.run link.aesIv (bs.take (bs.length % 2 ^ 16))))) := by
  have haligned : ¬ (bytesOf bs).length % 16 ≠ 0 := by
    rw [length_bytesOf]
    omega
  have hcount : (bytesOf bs).length / 16 = bs.length := by
    rw [length_bytesOf]
    omega
  unfold bflbAesLinkUpdate
  rw [if_neg haligned, hcount]
  simp only [mode, takeBlocks_of_le (Nat.mod_le _ _)]

theorem frozen_cbc (cipher : Cipher) (key : AesKey) (mode : AesMode) (iv : Block) :
    Frozen (fun ctx iv => mbedtlsAesCryptCbc cipher ctx mode iv) (Bound key mode) iv
      (cbcMode (cipher key.bytes) mode) iv := by
  constructor
  intro ctx bs output hbound
  have haligned : ¬ (bytesOf bs).length % 16 ≠ 0 := by
    rw [length_bytesOf]
    omega
  have hupdate := bflbAesLinkUpdate_bytesOf cipher
    { ctx.linkCtx with aesMode := .cbc, aesIv := iv } (cbcMode (cipher key.bytes) mode)
    (fun n input => by
      simp only [BflbAesLink.engine, hbound.key_eq, hbound.dir_eq]) bs output
  simp only [mbedtlsAesCryptCbc, if_neg haligned, hupdate, true_and]
  exact ⟨hbound.key_eq, hbound.dir_eq⟩

theorem frozen_ctr (cipher : Cipher) (key : AesKey) (mode : AesMode) (st : CtrState) :
    Frozen (fun ctx st => mbedtlsAesCryptCtr cipher ctx st) (Bound key mode) st
      (ctr (cipher key.bytes) Block.succ) st.nonceCounter := by
  constructor
  intro ctx bs output hbound
  have haligned : ¬ (bytesOf bs).length % 16 ≠ 0 := by
    rw [length_bytesOf]
    omega
  have hupdate := bflbAesLinkUpdate_bytesOf cipher
    { ctx.linkCtx with aesMode := .ctr, aesIv := st.nonceCounter }
    (ctr (cipher key.bytes) Block.succ)
    (fun n input => by simp only [BflbAesLink.engine, hbound.key_eq]) bs output
  simp only [mbedtlsAesCryptCtr, if_neg haligned, hupdate, true_and]
  exact ⟨hbound.key_eq, hbound.dir_eq⟩

/-! ## Calls in turn -/

theorem blit_whole {bytes : List UInt8} (h : output.length = bytes.length) :
    blit output 0 bytes = bytes := by
  rw [blit, List.take_zero, List.nil_append, Nat.zero_add, List.drop_eq_nil_of_le (by omega),
    List.append_nil]

/-- A buffer whose last byte is not that of `bytes`. -/
theorem blit_ne {bytes part : List UInt8} (hne : bytes ≠ []) (hlen : part.length < bytes.length) :
    blit (bytes.map (· + 1)) 0 part ≠ bytes := by
  intro heq
  have hlast := congrArg (fun l => l[bytes.length - 1]?) heq
  have hpos := List.length_pos_of_ne_nil hne
  have hin : bytes.length - 1 < bytes.length := by omega
  simp only [getElem?_blit (show 0 + part.length ≤ (bytes.map (· + 1)).length by
    rw [List.length_map]; omega), if_neg (Nat.not_lt_zero _), List.getElem?_map,
    List.getElem?_eq_getElem hin, Option.map_some] at hlast
  rw [if_neg (by omega)] at hlast
  have hsame := Option.some.inj hlast
  have hnat := congrArg UInt8.toNat hsame
  rw [UInt8.toNat_add] at hnat
  have hlt := (bytes[bytes.length - 1]).toNat_lt
  have hone : (1 : UInt8).toNat = 1 := rfl
  omega

section
variable {S : Type} {crypt : MbedtlsAesContext → S → List UInt8 → List UInt8 → Crypt S}
  {inv : MbedtlsAesContext → Prop} {st : S} {M : StreamMode Block Block Block} {s : Block}
  {pieces : List (List Block)}

theorem Frozen.call_small (h : Frozen crypt inv st M s) (hinv : inv ctx) (hsmall : bs.length < 2 ^ 16)
    (hlen : output.length = 16 * bs.length) :
    (crypt ctx st (bytesOf bs) output).output = bytesOf (M.run s bs) := by
  rw [(h.call ctx bs output hinv).2.1, Nat.mod_eq_of_lt hsmall, List.take_length]
  apply blit_whole
  rw [length_bytesOf, StreamMode.length_run, hlen]

/-- Each call runs its chunk from the first state. -/
theorem Frozen.calls_eq (h : Frozen crypt inv st M s) (hinv : inv ctx) {calls : List Buffers}
    (hcalls : calls.map Buffers.input = pieces.map bytesOf)
    (hsmall : ∀ bs ∈ pieces, bs.length < 2 ^ 16) :
    callsOf crypt ctx st calls = pieces.map fun bs => (0, bytesOf (M.run s bs)) := by
  induction calls generalizing ctx pieces with
  | nil =>
    have hnil : pieces = [] := List.map_eq_nil_iff.mp hcalls.symm
    rw [hnil]
    rfl
  | cons b calls ih =>
    obtain ⟨bs, rest, rfl, hfirst, hrest⟩ := List.map_eq_cons_iff.mp hcalls.symm
    obtain ⟨hret, -, hstate, hkept⟩ := h.call ctx bs b.output hinv
    have hout := h.call_small hinv (hsmall bs List.mem_cons_self)
      (show b.output.length = 16 * bs.length by rw [b.same, ← hfirst, length_bytesOf])
    rw [callsOf, ← hfirst, hret, hstate, hout,
      ih hkept hrest.symm fun bs hbs => hsmall bs (List.mem_cons_of_mem _ hbs)]
    rfl

/-- Chunks of whole blocks give what the mode gives exactly when the blocks fit in 16 bits
and the state comes back before every later chunk. -/
theorem Frozen.streams_iff (h : Frozen crypt inv st M s) (hinv : inv ctx)
    (inj : ∀ s t x, M.out s x = M.out t x → s = t) :
    Streams crypt ctx st (pieces.map bytesOf) (bytesOf (M.run s pieces.flatten)) ↔
      pieces.flatten.length < 2 ^ 16 ∧
        ∀ pre bs post, pieces = pre ++ bs :: post → bs ≠ [] → M.next s pre.flatten = s := by
  have hwhole := flatten_map_bytesOf pieces
  -- the outputs of the calls, when none of them is too long
  have houts : pieces.flatten.length < 2 ^ 16 → ∀ calls : List Buffers,
      calls.map Buffers.input = pieces.map bytesOf →
      (∀ r ∈ callsOf crypt ctx st calls, r.1 = 0) ∧
        (callsOf crypt ctx st calls).flatMap Prod.snd = bytesOf (pieces.flatMap (M.run s)) := by
    intro hsmall calls hcalls
    have hpiece : ∀ bs ∈ pieces, bs.length < 2 ^ 16 := fun bs hbs =>
      Nat.lt_of_le_of_lt (List.sublist_flatten_of_mem hbs).length_le hsmall
    rw [h.calls_eq hinv hcalls hpiece]
    constructor
    · intro r hr
      obtain ⟨bs, -, rfl⟩ := List.mem_map.mp hr
      rfl
    · rw [List.flatMap_map, List.flatMap_def, List.flatMap_def, ← flatten_map_bytesOf, List.map_map]
      rfl
  constructor
  · intro hstreams
    have hcalls : (pieces.map fun bs => Buffers.mk (bytesOf bs) (bytesOf bs) rfl).map
        Buffers.input = pieces.map bytesOf := by
      rw [List.map_map]
      rfl
    have hsmall : pieces.flatten.length < 2 ^ 16 := by
      apply Nat.lt_of_not_le
      intro hlarge
      obtain ⟨-, -, -, hout⟩ := hstreams _
        ⟨bytesOf pieces.flatten, (bytesOf (M.run s pieces.flatten)).map (· + 1), by simp⟩
        hcalls hwhole.symm
      rw [(h.call ctx pieces.flatten _ hinv).2.1] at hout
      have hmod := Nat.mod_lt pieces.flatten.length (show 0 < 2 ^ 16 by decide)
      have hlen : (bytesOf (M.run s
          (pieces.flatten.take (pieces.flatten.length % 2 ^ 16)))).length <
          (bytesOf (M.run s pieces.flatten)).length := by
        rw [length_bytesOf, length_bytesOf, StreamMode.length_run, StreamMode.length_run,
          List.length_take]
        omega
      exact blit_ne (List.ne_nil_of_length_pos (by omega)) hlen hout
    obtain ⟨-, hflat, -, -⟩ := hstreams _
      ⟨bytesOf pieces.flatten, bytesOf pieces.flatten, rfl⟩ hcalls hwhole.symm
    rw [(houts hsmall _ hcalls).2] at hflat
    exact ⟨hsmall, (M.frozen_iff inj pieces).mp (bytesOf_inj hflat)⟩
  · rintro ⟨hsmall, hback⟩ calls whole hcalls hinput
    obtain ⟨hrets, hflat⟩ := houts hsmall calls hcalls
    rw [(M.frozen_iff inj pieces).mpr hback] at hflat
    rw [hwhole] at hinput
    have hlen : whole.output.length = 16 * pieces.flatten.length := by
      rw [whole.same, hinput, length_bytesOf]
    rw [hinput]
    exact ⟨hrets, hflat, (h.call ctx _ _ hinv).1, h.call_small hinv hsmall hlen⟩

end

/-! ## The claims' three parts -/

theorem exists_pieces {chunks : List (List UInt8)} (h : ∀ c ∈ chunks, c.length % 16 = 0) :
    ∃ pieces : List (List Block), chunks = pieces.map bytesOf := by
  induction chunks with
  | nil => exact ⟨[], rfl⟩
  | cons c chunks ih =>
    obtain ⟨bs, rfl⟩ := exists_bytesOf (h c List.mem_cons_self)
    obtain ⟨pieces, rfl⟩ := ih fun c hc => h c (List.mem_cons_of_mem _ hc)
    exact ⟨bs :: pieces, rfl⟩

/-- A condition at the cuts of the chunks is one at the cuts of their blocks. -/
theorem forall_cuts_iff {pieces : List (List Block)} {P : List UInt8 → Prop} :
    (∀ pre c post, pieces.map bytesOf = pre ++ c :: post → c ≠ [] → P pre.flatten) ↔
      ∀ pre bs post, pieces = pre ++ bs :: post → bs ≠ [] → P (bytesOf pre.flatten) := by
  have hne : ∀ bs : List Block, bytesOf bs ≠ [] ↔ bs ≠ [] := by
    intro bs
    rw [← List.length_pos_iff, ← List.length_pos_iff, length_bytesOf]
    omega
  constructor
  · rintro h pre bs post rfl hbs
    rw [← flatten_map_bytesOf]
    exact h (pre.map bytesOf) (bytesOf bs) (post.map bytesOf)
      (by rw [List.map_append, List.map_cons]) ((hne bs).mpr hbs)
  · intro h pre c post hsplit hc
    obtain ⟨pre', rest, rfl, rfl, hrest⟩ := List.map_eq_append_iff.mp hsplit
    obtain ⟨bs, post', rfl, rfl, rfl⟩ := List.map_eq_cons_iff.mp hrest
    rw [flatten_map_bytesOf]
    exact h pre' bs post' rfl ((hne bs).mp hc)

theorem cbcMode_inj (E : Equiv.Perm Block) (mode : AesMode) (s t x : Block)
    (h : (cbcMode E mode).out s x = (cbcMode E mode).out t x) : s = t := by
  cases mode with
  | encrypt => exact cbcEnc_inj E s t x h
  | decrypt => exact cbcDec_inj E s t x h

theorem cbcStreams_iff (cipher : Cipher) (key : AesKey) (mode : AesMode) (iv : Block)
    {chunks : List (List UInt8)} (aligned : ∀ c ∈ chunks, c.length % 16 = 0) :
    CbcStreams cipher key mode iv chunks ↔ CbcSafe cipher key mode iv chunks := by
  obtain ⟨pieces, rfl⟩ := exists_pieces aligned
  have hsoft : ∀ bs, (softCryptCbc (cipher key.bytes) mode iv (bytesOf bs)).iv =
      (cbcMode (cipher key.bytes) mode).next iv bs := by
    intro bs
    rw [softCryptCbc_bytesOf]
  have hstreams : Streams _ _ _ (pieces.map bytesOf) _ ↔ _ :=
    (frozen_cbc cipher key mode iv).streams_iff (bound_keyed key mode) (cbcMode_inj _ mode)
  have hcuts := @forall_cuts_iff pieces fun before =>
    (softCryptCbc (cipher key.bytes) mode iv before).iv = iv
  simp only [hsoft] at hcuts
  unfold CbcStreams
  rw [flatten_map_bytesOf, softCryptCbc_bytesOf, hstreams, ← hcuts]
  constructor
  · rintro ⟨hsmall, hback⟩
    refine ⟨?_, hback⟩
    rw [flatten_map_bytesOf, length_bytesOf]
    omega
  · rintro ⟨hsmall, hback⟩
    rw [flatten_map_bytesOf, length_bytesOf] at hsmall
    exact ⟨by omega, hback⟩

/-- A chunk that ends inside a block is refused. -/
theorem aligned_of_ret {st : CtrState} {calls : List Buffers}
    (h : ∀ r ∈ callsOf (fun ctx st => mbedtlsAesCryptCtr cipher ctx st) ctx st calls, r.1 = 0) :
    ∀ b ∈ calls, b.input.length % 16 = 0 := by
  induction calls generalizing ctx st with
  | nil => exact fun b hb => absurd hb List.not_mem_nil
  | cons b calls ih =>
    intro b' hb'
    cases List.mem_cons.mp hb' with
    | inl heq =>
      have hret : (mbedtlsAesCryptCtr cipher ctx st b.input b.output).ret = 0 :=
        h _ List.mem_cons_self
      rw [heq]
      apply Decidable.byContradiction
      intro hcut
      unfold mbedtlsAesCryptCtr at hret
      rw [if_pos hcut] at hret
      cases hret
    | inr hrest => exact ih (fun r hr => h r (List.mem_cons_of_mem _ hr)) b' hrest

theorem softCryptCtr_bytesOf (E : Equiv.Perm Block) (nonceCounter streamBlock : Block)
    (bs : List Block) :
    (softCryptCtr E { ncOff := 0, nonceCounter := nonceCounter, streamBlock := streamBlock }
      (bytesOf bs)).output = bytesOf ((ctr E Block.succ).run nonceCounter bs) :=
  ctrBytes_bytesOf rfl bs

theorem ctrStreams_iff (cipher : Cipher) (key : AesKey) (nonceCounter streamBlock : Block)
    (chunks : List (List UInt8)) :
    CtrStreams cipher key nonceCounter streamBlock chunks ↔ CtrSafe chunks := by
  by_cases aligned : ∀ c ∈ chunks, c.length % 16 = 0
  · obtain ⟨pieces, rfl⟩ := exists_pieces aligned
    have hstreams : Streams _ _ _ (pieces.map bytesOf) _ ↔ _ := (frozen_ctr cipher key .encrypt
      { ncOff := 0, nonceCounter := nonceCounter, streamBlock := streamBlock }).streams_iff
      (bound_keyed key .encrypt) (ctr_inj (cipher key.bytes) Block.succ)
    have hcuts := @forall_cuts_iff pieces (· = [])
    have hnil : ∀ bs : List Block, bytesOf bs = [] ↔ bs = [] := by
      intro bs
      rw [← List.length_eq_zero_iff, length_bytesOf, ← List.length_eq_zero_iff]
      omega
    simp only [hnil] at hcuts
    simp only [CtrStreams, flatten_map_bytesOf, softCryptCtr_bytesOf, hstreams]
    constructor
    · rintro ⟨hsmall, hback⟩
      refine ⟨?_, aligned, hcuts.mpr fun pre bs post hsplit hne => ?_⟩
      · rw [flatten_map_bytesOf, length_bytesOf]
        omega
      · have hreturn := hback pre bs post hsplit hne
        rw [next_ctr] at hreturn
        have hlen : pre.flatten.length ≤ pieces.flatten.length := by
          rw [hsplit, List.flatten_append, List.length_append]
          exact Nat.le_add_right _ _
        exact List.eq_nil_of_length_eq_zero
          (Block.iterate_succ_eq_self (Nat.lt_of_le_of_lt hlen (hsmall.trans (by decide))) hreturn)
    · rintro ⟨hsmall, -, hsingle⟩
      rw [flatten_map_bytesOf, length_bytesOf] at hsmall
      refine ⟨by omega, fun pre bs post hsplit hne => ?_⟩
      rw [hcuts.mp hsingle pre bs post hsplit hne]
      rfl
  · refine iff_of_false (fun hstreams => aligned ?_) fun hsafe => aligned hsafe.aligned
    obtain ⟨hrets, -⟩ := hstreams (chunks.map fun c => ⟨c, c, rfl⟩)
      ⟨chunks.flatten, chunks.flatten, rfl⟩ (by rw [List.map_map]; exact List.map_id _) rfl
    intro c hc
    exact aligned_of_ret hrets ⟨c, c, rfl⟩ (List.mem_map.mpr ⟨c, hc, rfl⟩)

theorem cbcUndone_iff (cipher : Cipher) (key : AesKey) (iv : Block) {message : List UInt8}
    (aligned : message.length % 16 = 0) :
    CbcUndone cipher key iv message ↔ message.length < 16 * 2 ^ 16 := by
  obtain ⟨bs, rfl⟩ := exists_bytesOf aligned
  have henc := frozen_cbc cipher key .encrypt iv
  have hdec := frozen_cbc cipher key .decrypt iv
  rw [length_bytesOf]
  constructor
  · intro hundone
    apply Nat.lt_of_not_le
    intro hlarge
    have hcall := henc.call _ bs (bytesOf bs) (bound_keyed key .encrypt)
    have hmod := Nat.mod_lt bs.length (show 0 < 2 ^ 16 by decide)
    have hpart : ∀ M : StreamMode Block Block Block, ∀ cs : List Block,
        (bytesOf (M.run iv (cs.take (bs.length % 2 ^ 16)))).length < (bytesOf bs).length := by
      intro M cs
      rw [length_bytesOf, length_bytesOf, StreamMode.length_run, List.length_take]
      omega
    have hlen : (blit (bytesOf bs) 0 (bytesOf ((cbcMode (cipher key.bytes) .encrypt).run iv
        (bs.take (bs.length % 2 ^ 16))))).length = (bytesOf bs).length :=
      length_blit (by
        rw [Nat.zero_add]
        exact (hpart _ _).le)
    obtain ⟨cs, hcs⟩ := exists_bytesOf (hlen.trans (length_bytesOf bs) ▸ Nat.mul_mod_right 16 _ :
      (blit (bytesOf bs) 0 (bytesOf ((cbcMode (cipher key.bytes) .encrypt).run iv
        (bs.take (bs.length % 2 ^ 16))))).length % 16 = 0)
    have hcslen : (bytesOf cs).length = (bytesOf bs).length := by rw [← hcs, hlen]
    have hcount : cs.length = bs.length := by
      rw [length_bytesOf, length_bytesOf] at hcslen
      omega
    have hout := hundone ⟨bytesOf bs, bytesOf bs, rfl⟩
      ⟨bytesOf cs, (bytesOf bs).map (· + 1), by rw [List.length_map, hcslen]⟩ rfl
      (by rw [hcall.2.1, hcs])
    rw [(hdec.call _ cs _ (bound_keyed key .decrypt)).2.1, hcount] at hout
    have hne : bytesOf bs ≠ [] := by
      apply List.ne_nil_of_length_pos
      rw [length_bytesOf]
      omega
    exact blit_ne hne (hpart _ _) hout
  · rintro hsmall ⟨input, output, hsame⟩ ⟨input', output', hsame'⟩ hinput hinput'
    subst hinput
    have hshort : bs.length < 2 ^ 16 := by omega
    have hfirst := henc.call_small (bound_keyed key .encrypt) hshort
      (hsame.trans (length_bytesOf bs))
    rw [hfirst] at hinput'
    subst hinput'
    have hrun : ((cbcMode (cipher key.bytes) .encrypt).run iv bs).length = bs.length :=
      StreamMode.length_run _
    have hsecond := hdec.call_small (bound_keyed key .decrypt) (hrun.trans_lt hshort)
      (hsame'.trans (length_bytesOf _))
    rw [hsecond]
    exact congrArg bytesOf (cbcDec_cbcEnc _ iv bs)

/-- The engine's functions stream as the software does exactly in these cases. -/
theorem streams_iff_safe (cipher : Cipher) (key : AesKey) :
    (∀ mode iv chunks, (∀ c ∈ chunks, c.length % 16 = 0) →
      (CbcStreams cipher key mode iv chunks ↔ CbcSafe cipher key mode iv chunks)) ∧
    (∀ nonceCounter streamBlock chunks,
      CtrStreams cipher key nonceCounter streamBlock chunks ↔ CtrSafe chunks) ∧
    ∀ iv message, message.length % 16 = 0 →
      (CbcUndone cipher key iv message ↔ message.length < 16 * 2 ^ 16) :=
  ⟨fun mode iv _ aligned => cbcStreams_iff cipher key mode iv aligned,
    ctrStreams_iff cipher key, fun iv _ aligned => cbcUndone_iff cipher key iv aligned⟩

/-- Whatever the cipher and the key: two CBC chunks, and one CTR chunk of one byte. -/
theorem chunks_differ (cipher : Cipher) (key : AesKey) :
    ¬ CbcStreams cipher key .decrypt (fun _ => 0) [List.replicate 16 1, List.replicate 16 1] ∧
      ¬ CtrStreams cipher key (fun _ => 0) (fun _ => 0) [[0]] := by
  constructor
  · intro hstreams
    have hsafe := (cbcStreams_iff cipher key .decrypt (fun _ => 0) (by decide)).mp hstreams
    have hback := hsafe.back [List.replicate 16 1] (List.replicate 16 1) [] rfl (by decide)
    rw [show [List.replicate 16 (1 : UInt8)].flatten = bytesOf [fun _ => 1] from rfl,
      softCryptCbc_bytesOf] at hback
    exact absurd (congrFun hback 0) (show ¬ (1 : UInt8) = 0 by decide)
  · intro hstreams
    have hsafe := (ctrStreams_iff cipher key (fun _ => 0) (fun _ => 0) [[0]]).mp hstreams
    exact absurd (hsafe.aligned [0] List.mem_cons_self) (by decide)

/-- A cipher that changes nothing, with a key of zeros. -/
theorem second_chunk_differs :
    ¬ CbcStreams (fun _ => Equiv.refl Block) ⟨List.replicate 16 0, Or.inl rfl⟩ .decrypt (fun _ => 0)
        [List.replicate 16 1, List.replicate 16 1] ∧
      ¬ CtrStreams (fun _ => Equiv.refl Block) ⟨List.replicate 16 0, Or.inl rfl⟩ (fun _ => 0)
        (fun _ => 0) [[0]] :=
  chunks_differ _ _

end BouffaloSdk.Crypto
