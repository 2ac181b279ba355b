import BouffaloSdk.Kit.LittleEndian
import BouffaloSdk.Kit.Slice

/-!
# Reading and programming the serial flash

`bflb_sflash_read` and `bflb_sflash_program` of `drivers/lhal/src/flash/bflb_sflash.c`, down to
the commands they send and the bytes they copy. A command goes out as the bytes of two words,
the highest first: the opcode, the address, the mode byte of a continuous read.
-/

namespace BouffaloSdk.SflashTransfer
open Kit

def sfCtrlRead : Nat := 0
def sfCtrlWrite : Nat := 1
def sfCtrlNioMode : UInt8 := 0
def sfCtrlDoMode : UInt8 := 1
def sfCtrlQoMode : UInt8 := 2
def sfCtrlDioMode : UInt8 := 3
def sfCtrlQioMode : UInt8 := 4
def sfCtrlAddr2Lines : Nat := 1
def sfCtrlAddr4Lines : Nat := 2
def sfCtrlData2Lines : Nat := 1
def sfCtrlData4Lines : Nat := 2
def norFlashCtrlBufSize : Nat := 256

/-- `struct sf_ctrl_cmd_cfg_type`, without the modes that stay 0. -/
structure SfCtrlCmdCfg where
  rwFlag : Nat
  addrMode : Nat
  addrSize : Nat
  dummyClks : Nat
  dataMode : Nat
  nbData : Nat
  cmdBuf0 : Nat
  cmdBuf1 : Nat
  deriving DecidableEq, Repr

def SfCtrlCmdCfg.cleared : SfCtrlCmdCfg := ⟨0, 0, 0, 0, 0, 0, 0, 0⟩

/-- What the two functions read of `spi_flash_cfg_type`. -/
structure SpiFlashCfg where
  ioMode : UInt8
  cReadSupport : UInt8
  pageSize : UInt16
  pageProgramCmd : UInt8
  qpageProgramCmd : UInt8
  qppAddrMode : UInt8
  fastReadCmd : UInt8
  frDmyClk : UInt8
  fastReadDoCmd : UInt8
  frDoDmyClk : UInt8
  fastReadDioCmd : UInt8
  frDioDmyClk : UInt8
  fastReadQoCmd : UInt8
  frQoDmyClk : UInt8
  fastReadQioCmd : UInt8
  frQioDmyClk : UInt8
  cReadMode : UInt8
  timePagePgm : UInt16
  deriving DecidableEq, Repr

def SpiFlashCfg.is32BitsAddr (cfg : SpiFlashCfg) : Bool := cfg.ioMode &&& 0x20 > 0

/-- `arch_memcpy_fast`, nothing where it leaves an object. With both pointers aligned it copies
words and then what is left. -/
def archMemcpyFast (aligned : Bool) (dst : List UInt8) (i : Nat) (src : List UInt8) (n : Nat) :
    Option (List UInt8) :=
  if i + n ≤ dst.length ∧ n ≤ src.length then
    if aligned then
      let left := n % 4
      let done := n - left
      some (blit (blit dst i (src.take (4 * (n >>> 2)))) (i + done) (slice src done left))
    else some (blit dst i (src.take n))
  else none

/-! ## Reading -/

/-- The modes, the dummy clocks and the opcode of a read. -/
def readMode (cfg : SpiFlashCfg) (ioMode : UInt8) : Option (SfCtrlCmdCfg × UInt8) :=
  let c := SfCtrlCmdCfg.cleared
  if ioMode = sfCtrlNioMode then
    some ({ c with dummyClks := cfg.frDmyClk.toNat }, cfg.fastReadCmd)
  else if ioMode = sfCtrlDoMode then
    some ({ c with dataMode := sfCtrlData2Lines, dummyClks := cfg.frDoDmyClk.toNat },
      cfg.fastReadDoCmd)
  else if ioMode = sfCtrlDioMode then
    some ({ c with addrMode := sfCtrlAddr2Lines, dataMode := sfCtrlData2Lines
                   dummyClks := cfg.frDioDmyClk.toNat }, cfg.fastReadDioCmd)
  else if ioMode = sfCtrlQoMode then
    some ({ c with dataMode := sfCtrlData4Lines, dummyClks := cfg.frQoDmyClk.toNat },
      cfg.fastReadQoCmd)
  else if ioMode = sfCtrlQioMode then
    some ({ c with addrMode := sfCtrlAddr4Lines, dataMode := sfCtrlData4Lines
                   dummyClks := cfg.frQioDmyClk.toNat }, cfg.fastReadQioCmd)
  else none

/-- The read mode must be set, with this value. -/
def contReadMode (cfg : SpiFlashCfg) (ioMode : UInt8) (contRead : Bool) : Option UInt8 :=
  if (ioMode = sfCtrlQioMode ∨ ioMode = sfCtrlDioMode) ∧ cfg.cReadSupport &&& 0x02 = 0 then
    if cfg.cReadSupport &&& 0x01 = 0 then some cfg.cReadMode
    else if contRead then some cfg.cReadMode
    else some (if cfg.cReadMode = 0 then 1 else 0)
  else none

/-- The command before the first address. -/
def prepareRead (cfg : SpiFlashCfg) (ioMode : UInt8) (contRead : Bool) :
    Option (SfCtrlCmdCfg × UInt8) :=
  (readMode cfg ioMode).map fun (c, cmd) =>
    let c := { c with rwFlag := sfCtrlRead, addrSize := if cfg.is32BitsAddr then 4 else 3 }
    match contReadMode cfg ioMode contRead with
    | none => (c, cmd)
    | some mode =>
      ({ c with
          cmdBuf1 :=
            if cfg.is32BitsAddr then c.cmdBuf1 ||| mode.toNat <<< 16 else mode.toNat <<< 24
          addrSize := c.addrSize + 1 }, cmd)

/-- The words of the command for `addr`. The second one keeps what it has. -/
def setReadAddr (cfg : SpiFlashCfg) (cmd : UInt8) (addr : Nat) (c : SfCtrlCmdCfg) :
    SfCtrlCmdCfg :=
  if cfg.is32BitsAddr then
    { c with cmdBuf0 := cmd.toNat <<< 24 ||| addr >>> 8
             cmdBuf1 := c.cmdBuf1 ||| (addr <<< 24) % 2 ^ 32 }
  else { c with cmdBuf0 := cmd.toNat <<< 24 ||| addr }

/-- The controller: its buffer after a command, how often it is then found busy, and
`SF_CTRL_BUSY_STATE_TIMEOUT`. -/
structure Controller where
  answer : SfCtrlCmdCfg → List UInt8 → List UInt8
  polls : Nat → Nat
  timeout : Nat

/-- The loop of `bflb_sflash_read`: the commands it sends, the memory after it and its result.
`aligned k` is for the copy of turn `k`. -/
def readLoop (ctl : Controller) (aligned : Nat → Bool) (cfg : SpiFlashCfg) (cmd : UInt8)
    (len : Nat) : (fuel k : Nat) → SfCtrlCmdCfg → (addr i data : Nat) → (mem buf : List UInt8) →
      Option (List SfCtrlCmdCfg × List UInt8 × Int)
  | 0, _, _, _, _, _, _, _ => none
  | fuel + 1, k, c, addr, i, data, mem, buf =>
    if i < len then
      let c := setReadAddr cfg cmd addr c
      let curLen := if norFlashCtrlBufSize ≤ len - i then norFlashCtrlBufSize else len - i
      let c :=
        { c with
          nbData := if norFlashCtrlBufSize ≤ len - i then curLen else (curLen + 3) >>> 2 <<< 2 }
      let buf := ctl.answer c buf
      if ctl.timeout ≤ ctl.polls k then some ([c], mem, -2)
      else
        (archMemcpyFast (aligned k) mem data buf curLen).bind fun mem =>
          (readLoop ctl aligned cfg cmd len fuel (k + 1) c ((addr + curLen) % 2 ^ 32) (i + curLen)
            (data + curLen) mem buf).map fun r => (c :: r.1, r.2)
    else some ([], mem, 0)

/-- `bflb_sflash_read` into `mem` from `data` on. -/
def bflbSflashRead (ctl : Controller) (aligned : Nat → Bool) (fuel : Nat) (cfg : SpiFlashCfg)
    (ioMode : UInt8) (contRead : Bool) (addr data len : Nat) (mem buf : List UInt8) :
    Option (List SfCtrlCmdCfg × List UInt8 × Int) :=
  match prepareRead cfg ioMode contRead with
  | none => some ([], mem, -1)
  | some (c, cmd) => readLoop ctl aligned cfg cmd len fuel 0 c addr 0 data mem buf

/-! ## Programming -/

/-- The modes and the opcode of a page program. -/
def programMode (cfg : SpiFlashCfg) (ioMode : UInt8) : Option (SfCtrlCmdCfg × UInt8) :=
  let c := SfCtrlCmdCfg.cleared
  if ioMode = sfCtrlNioMode ∨ ioMode = sfCtrlDoMode ∨ ioMode = sfCtrlDioMode then
    some (c, cfg.pageProgramCmd)
  else if ioMode = sfCtrlQioMode ∨ ioMode = sfCtrlQoMode then
    some ({ c with addrMode := cfg.qppAddrMode.toNat, dataMode := sfCtrlData4Lines },
      cfg.qpageProgramCmd)
  else none

def setProgramAddr (cfg : SpiFlashCfg) (cmd : UInt8) (addr : Nat) (c : SfCtrlCmdCfg) :
    SfCtrlCmdCfg :=
  if cfg.is32BitsAddr then
    { c with cmdBuf0 := cmd.toNat <<< 24 ||| addr >>> 8, cmdBuf1 := (addr <<< 24) % 2 ^ 32 }
  else { c with cmdBuf0 := cmd.toNat <<< 24 ||| addr }

/-- The flash as programming sees it: what the `k`th write enable returns and leaves in the
controller's buffer, and how often the flash is found busy after the command. -/
structure Chip where
  writeEnable : Nat → Int
  ctrlBuf : Nat → List UInt8
  polls : Nat → Nat

/-- The loop of `bflb_sflash_program`: the commands, each with the controller's buffer when it
is sent, and its result. -/
def programLoop (chip : Chip) (aligned : Nat → Bool) (cfg : SpiFlashCfg) (cmd : UInt8)
    (data : List UInt8) : (fuel k : Nat) → SfCtrlCmdCfg → (addr i : Nat) →
      Option (List (SfCtrlCmdCfg × List UInt8) × Int)
  | 0, _, _, _, _ => none
  | fuel + 1, k, c, addr, i =>
    if i < data.length then
      if chip.writeEnable k ≠ 0 then some ([], chip.writeEnable k)
      else if cfg.pageSize = 0 then none
      else
        let curLen := cfg.pageSize.toNat - addr % cfg.pageSize.toNat
        let curLen := if data.length - i < curLen then data.length - i else curLen
        (archMemcpyFast (aligned k) (chip.ctrlBuf k) 0 (data.drop i) curLen).bind fun buf =>
          let c := { setProgramAddr cfg cmd addr c with nbData := curLen }
          if cfg.timePagePgm.toNat * 20 < chip.polls k then some ([(c, buf)], -1)
          else
            (programLoop chip aligned cfg cmd data fuel (k + 1) c ((addr + curLen) % 2 ^ 32)
              (i + curLen)).map fun r => ((c, buf) :: r.1, r.2)
    else some ([], 0)

/-- `bflb_sflash_program` of all of `data`. -/
def bflbSflashProgram (chip : Chip) (aligned : Nat → Bool) (fuel : Nat) (cfg : SpiFlashCfg)
    (ioMode : UInt8) (addr : Nat) (data : List UInt8) :
    Option (List (SfCtrlCmdCfg × List UInt8) × Int) :=
  match programMode cfg ioMode with
  | none => some ([], -1)
  | some (c, cmd) =>
    let c := { c with rwFlag := sfCtrlWrite, addrSize := if cfg.is32BitsAddr then 4 else 3 }
    programLoop chip aligned cfg cmd data fuel 0 c addr 0

/-! ## What the commands say -/

/-- The bytes of a command on the wire. -/
def SfCtrlCmdCfg.wire (c : SfCtrlCmdCfg) : List UInt8 :=
  (toBE 4 c.cmdBuf0 ++ toBE 4 c.cmdBuf1).take (1 + c.addrSize)

/-- The bytes of an address. -/
def SpiFlashCfg.addrBytes (cfg : SpiFlashCfg) : Nat := if cfg.is32BitsAddr then 4 else 3

/-- The address that the flash takes from a command. -/
def SfCtrlCmdCfg.addr (c : SfCtrlCmdCfg) (cfg : SpiFlashCfg) : Nat :=
  ofLE ((c.wire.drop 1).take cfg.addrBytes).reverse

/-- The bytes that page programs write, with their addresses. -/
def programmed (cfg : SpiFlashCfg) (cmds : List (SfCtrlCmdCfg × List UInt8)) :
    List (UInt8 × Nat) :=
  cmds.flatMap fun (c, buf) => (buf.take c.nbData).zipIdx (c.addr cfg)

/-- The bytes from `addr` on. -/
def bytesAt (flash : Nat → UInt8) (addr n : Nat) : List UInt8 :=
  (List.range n).map fun j => flash (addr + j)

/-- After a read command the buffer starts with the bytes asked for. -/
def Serves (ctl : Controller) (cfg : SpiFlashCfg) (flash : Nat → UInt8) : Prop :=
  ∀ c buf, c.rwFlag = sfCtrlRead → buf.length = norFlashCtrlBufSize →
    c.nbData ≤ norFlashCtrlBufSize →
    (ctl.answer c buf).length = norFlashCtrlBufSize ∧
      (ctl.answer c buf).take c.nbData = bytesAt flash (c.addr cfg) c.nbData

/-- A command with opcode, address and mode byte, if there is one. -/
def SpiFlashCfg.command (cfg : SpiFlashCfg) (cmd : UInt8) (addr : Nat) (mode : Option UInt8) :
    List UInt8 :=
  cmd :: toBE cfg.addrBytes addr ++ mode.toList

/-! ## Copies -/

variable {cfg : SpiFlashCfg} {cmd : UInt8} {addr len i n k fuel : Nat} {c : SfCtrlCmdCfg}
variable {mode : Option UInt8}

theorem archMemcpyFast_eq (aligned : Bool) {dst src : List UInt8} (hdst : i + n ≤ dst.length)
    (hsrc : n ≤ src.length) :
    archMemcpyFast aligned dst i src n = some (blit dst i (src.take n)) := by
  unfold archMemcpyFast
  rw [if_pos ⟨hdst, hsrc⟩]
  cases aligned with
  | false => rfl
  | true =>
    have hdone : 4 * (n >>> 2) = n - n % 4 := by
      rw [Nat.shiftRight_eq_div_pow]
      omega
    have hlength : (src.take (n - n % 4)).length = n - n % 4 := by
      rw [List.length_take]
      omega
    have hboth : src.take (n - n % 4) ++ slice src (n - n % 4) (n % 4) = src.take n := by
      unfold slice
      rw [← List.take_add]
      congr 1
      omega
    have hblit : blit (blit dst i (src.take (n - n % 4))) (i + (src.take (n - n % 4)).length)
        (slice src (n - n % 4) (n % 4)) = blit dst i (src.take n) := by
      rw [blit_blit (by omega), hboth]
    rw [hlength] at hblit
    rw [if_pos rfl, hdone]
    exact congrArg some hblit

/-! ## Words -/

theorem toBE_mod (k v : Nat) : toBE k (v % 256 ^ k) = toBE k v := by
  rw [toBE, toLE_mod]
  rfl

/-- A byte above three others. -/
theorem toBE_word (top : UInt8) {low : Nat} (h : low < 2 ^ 24) :
    toBE 4 (top.toNat <<< 24 ||| low) = top :: toBE 3 low := by
  have hword : top.toNat <<< 24 ||| low = top.toNat * 256 ^ 3 + low := by
    rw [← Nat.shiftLeft_add_eq_or_of_lt h, Nat.shiftLeft_eq]
    rfl
  have htop : (top.toNat * 256 ^ 3 + low) / 256 ^ 3 = top.toNat := by omega
  have hlow : (top.toNat * 256 ^ 3 + low) % 256 ^ 3 = low := by omega
  rw [hword, toBE_append 1 3, htop, ← toBE_mod 3, hlow]
  have hone : toBE 1 top.toNat = [top] := by simp [toBE, toLE]
  rw [hone]
  rfl

/-- The lowest byte of an address, moved to the top. -/
theorem shiftLeft_mod_word (addr : Nat) :
    (addr <<< 24) % 2 ^ 32 = (UInt8.ofNat addr).toNat <<< 24 := by
  rw [Nat.shiftLeft_eq, Nat.shiftLeft_eq, UInt8.toNat_ofNat']
  exact Nat.mul_mod_mul_right (2 ^ 24) addr (2 ^ 8)

theorem toBE_four (addr : Nat) : toBE 4 addr = toBE 3 (addr >>> 8) ++ [UInt8.ofNat addr] := by
  rw [toBE_append 3 1, Nat.shiftRight_eq_div_pow]
  rfl

/-- The words of an address in front of the byte `mode`. -/
theorem wire_words {c : SfCtrlCmdCfg} (h32 : cfg.is32BitsAddr = true) (haddr : addr < 2 ^ 32)
    (hword0 : c.cmdBuf0 = cmd.toNat <<< 24 ||| addr >>> 8)
    (hword1 : c.cmdBuf1 = (mode.getD 0).toNat <<< 16 ||| (addr <<< 24) % 2 ^ 32)
    (hsize : c.addrSize = cfg.addrBytes + mode.toList.length) :
    c.wire = cfg.command cmd addr mode := by
  have hhigh : addr >>> 8 < 2 ^ 24 := by
    rw [Nat.shiftRight_eq_div_pow]
    omega
  have hmode : (mode.getD 0).toNat <<< 16 < 2 ^ 24 := by
    have hlt := (mode.getD 0).toNat_lt
    rw [Nat.shiftLeft_eq]
    omega
  have hthree : toBE 3 ((mode.getD 0).toNat <<< 16) = [mode.getD 0, 0, 0] := by
    have hsplit : toBE 3 ((mode.getD 0).toNat <<< 16) =
        toBE 1 ((mode.getD 0).toNat <<< 16 / 256 ^ 2) ++ toBE 2 ((mode.getD 0).toNat <<< 16) :=
      toBE_append 1 2 _
    have hbyte : (mode.getD 0).toNat <<< 16 / 256 ^ 2 = (mode.getD 0).toNat := by
      rw [Nat.shiftLeft_eq]
      omega
    have hrest : (mode.getD 0).toNat <<< 16 % 256 ^ 2 = 0 := by
      rw [Nat.shiftLeft_eq]
      omega
    rw [hsplit, hbyte, ← toBE_mod 2, hrest]
    simp [toBE, toLE]
  have haddrBytes : cfg.addrBytes = 4 := by
    unfold SpiFlashCfg.addrBytes
    rw [if_pos h32]
  have hfour := toBE_four addr
  unfold SfCtrlCmdCfg.wire SpiFlashCfg.command
  rw [hword0, hword1, Nat.or_comm (_ <<< 16), shiftLeft_mod_word, toBE_word cmd hhigh,
    toBE_word _ hmode, hthree, hsize, haddrBytes, hfour]
  have hlength : (toBE 3 (addr >>> 8)).length = 3 := by
    rw [toBE, List.length_reverse, length_toLE]
  have hall : ∀ m, 3 ≤ m → (toBE 3 (addr >>> 8)).take m = toBE 3 (addr >>> 8) := fun m hm =>
    List.take_of_length_le (by omega)
  cases mode with
  | none => simp [List.take_append, hlength, hall]
  | some mode => simp [List.take_append, hlength, hall]

/-- The words of an address of three bytes. -/
theorem wire_word {c : SfCtrlCmdCfg} (h24 : cfg.is32BitsAddr = false) (haddr : addr < 2 ^ 24)
    (hword0 : c.cmdBuf0 = cmd.toNat <<< 24 ||| addr)
    (hword1 : c.cmdBuf1 = (mode.getD 0).toNat <<< 24)
    (hsize : c.addrSize = cfg.addrBytes + mode.toList.length) :
    c.wire = cfg.command cmd addr mode := by
  have hzero : toBE 4 ((mode.getD 0).toNat <<< 24) = mode.getD 0 :: toBE 3 0 := by
    rw [← toBE_word (mode.getD 0) (by decide : 0 < 2 ^ 24), Nat.or_zero]
  have haddrBytes : cfg.addrBytes = 3 := by
    unfold SpiFlashCfg.addrBytes
    rw [h24]
    rfl
  unfold SfCtrlCmdCfg.wire SpiFlashCfg.command
  rw [hword0, hword1, toBE_word cmd haddr, hzero, hsize, haddrBytes]
  have hlength : (toBE 3 addr).length = 3 := by
    rw [toBE, List.length_reverse, length_toLE]
  have hall : ∀ m, 3 ≤ m → (toBE 3 addr).take m = toBE 3 addr := fun m hm =>
    List.take_of_length_le (by omega)
  cases mode with
  | none => simp [hlength]
  | some mode => simp [List.take_append, hlength, hall]

/-- The address of a command that is well put together. -/
theorem addr_of_wire (hwire : c.wire = cfg.command cmd addr mode)
    (haddr : addr < 256 ^ cfg.addrBytes) : c.addr cfg = addr := by
  have hlength : (toBE cfg.addrBytes addr).length = cfg.addrBytes := by
    rw [toBE, List.length_reverse, length_toLE]
  unfold SfCtrlCmdCfg.addr
  rw [hwire, SpiFlashCfg.command, List.cons_append, List.drop_one, List.tail_cons,
    List.take_left' hlength, toBE, List.reverse_reverse, ofLE_toLE_of_lt haddr]

/-! ## A read -/

/-- The command is set up for the reads that go on from `addr`. -/
structure Ready (cfg : SpiFlashCfg) (mode : Option UInt8) (addr : Nat) (c : SfCtrlCmdCfg) :
    Prop where
  rwFlag : c.rwFlag = sfCtrlRead
  addrSize : c.addrSize = cfg.addrBytes + mode.toList.length
  word32 : cfg.is32BitsAddr = true →
    c.cmdBuf1 ||| (addr <<< 24) % 2 ^ 32 = (mode.getD 0).toNat <<< 16 ||| (addr <<< 24) % 2 ^ 32
  word24 : cfg.is32BitsAddr = false → c.cmdBuf1 = (mode.getD 0).toNat <<< 24

theorem cmdBuf1_of_readMode {ioMode : UInt8} (h : readMode cfg ioMode = some (c, cmd)) :
    c.cmdBuf1 = 0 := by
  unfold readMode SfCtrlCmdCfg.cleared at h
  dsimp only at h
  split at h
  · cases h
    rfl
  · split at h
    · cases h
      rfl
    · split at h
      · cases h
        rfl
      · split at h
        · cases h
          rfl
        · split at h
          · cases h
            rfl
          · cases h

theorem ready_of_prepareRead {ioMode : UInt8} {contRead : Bool}
    (h : prepareRead cfg ioMode contRead = some (c, cmd)) (addr : Nat) :
    Ready cfg (contReadMode cfg ioMode contRead) addr c := by
  unfold prepareRead at h
  obtain ⟨⟨c₀, cmd₀⟩, hmode, h⟩ := Option.map_eq_some_iff.mp h
  have hzero := cmdBuf1_of_readMode hmode
  cases hcont : contReadMode cfg ioMode contRead with
  | none =>
    simp only [hcont] at h
    obtain ⟨rfl, rfl⟩ := Prod.mk.injEq _ _ _ _ ▸ h
    exact ⟨rfl, rfl, fun _ => by simp [hzero], fun _ => by simp [hzero]⟩
  | some mode =>
    simp only [hcont] at h
    obtain ⟨rfl, rfl⟩ := Prod.mk.injEq _ _ _ _ ▸ h
    refine ⟨rfl, rfl, fun h32 => ?_, fun h24 => ?_⟩
    · simp [hzero, h32]
    · simp [h24]

/-- The word that the loop keeps has no bit too many for the next chunk. -/
theorem Ready.next (h : Ready cfg mode addr c) (cmd : UInt8) (nbData : Nat) :
    Ready cfg mode (addr + norFlashCtrlBufSize)
      { setReadAddr cfg cmd addr c with nbData := nbData } := by
  have hlow : ((addr + norFlashCtrlBufSize) <<< 24) % 2 ^ 32 = (addr <<< 24) % 2 ^ 32 := by
    unfold norFlashCtrlBufSize
    rw [Nat.shiftLeft_eq, Nat.shiftLeft_eq]
    omega
  unfold setReadAddr
  refine ⟨?_, ?_, fun h32 => ?_, fun h24 => ?_⟩
  · split <;> exact h.rwFlag
  · split <;> exact h.addrSize
  · rw [if_pos h32, hlow]
    dsimp only
    rw [Nat.or_assoc, Nat.or_self, h.word32 h32]
  · rw [if_neg (by simp [h24])]
    exact h.word24 h24

theorem Ready.wire (h : Ready cfg mode addr c) (haddr : addr < 256 ^ cfg.addrBytes)
    (cmd : UInt8) (nbData : Nat) :
    SfCtrlCmdCfg.wire { setReadAddr cfg cmd addr c with nbData := nbData } =
      cfg.command cmd addr mode := by
  unfold SpiFlashCfg.addrBytes at haddr
  unfold setReadAddr
  cases h32 : cfg.is32BitsAddr with
  | true =>
    rw [h32, if_pos rfl] at haddr
    rw [if_pos rfl]
    exact wire_words h32 haddr rfl (h.word32 h32) h.addrSize
  | false =>
    rw [h32, if_neg (by simp)] at haddr
    rw [if_neg (by simp)]
    exact wire_word h32 haddr rfl (h.word24 h32) h.addrSize

theorem bytesAt_add (flash : Nat → UInt8) (addr m n : Nat) :
    bytesAt flash addr (m + n) = bytesAt flash addr m ++ bytesAt flash (addr + m) n := by
  unfold bytesAt
  rw [List.range_add, List.map_append, List.map_map]
  congr 1
  apply List.map_congr_left
  intro j _
  exact congrArg flash (Nat.add_assoc addr m j).symm

theorem length_bytesAt (flash : Nat → UInt8) (addr n : Nat) :
    (bytesAt flash addr n).length = n := by
  rw [bytesAt, List.length_map, List.length_range]

theorem take_bytesAt (flash : Nat → UInt8) (addr : Nat) {m n : Nat} (h : m ≤ n) :
    (bytesAt flash addr n).take m = bytesAt flash addr m := by
  obtain ⟨r, rfl⟩ := Nat.exists_eq_add_of_le h
  rw [bytesAt_add, List.take_left' (length_bytesAt flash addr m)]

/-- Chunk `j` of a read: its command and how many bytes that asks for, whole words. -/
def chunk (cfg : SpiFlashCfg) (cmd : UInt8) (mode : Option UInt8) (addr len j : Nat) :
    List UInt8 × Nat :=
  (cfg.command cmd (addr + norFlashCtrlBufSize * j) mode,
    (min norFlashCtrlBufSize (len - norFlashCtrlBufSize * j) + 3) / 4 * 4)

/-- How many chunks a read has. -/
def chunkCount (len : Nat) : Nat := (len + (norFlashCtrlBufSize - 1)) / norFlashCtrlBufSize

/-- The commands of a read are those of its chunks and the bytes lie in `mem` from `data` on,
as far as the read has come; where it returns 0 that is to the end. `k` chunks are behind it. -/
structure Delivers (cfg : SpiFlashCfg) (flash : Nat → UInt8) (cmd : UInt8) (mode : Option UInt8)
    (addr data len k : Nat) (mem : List UInt8) (cmds : List SfCtrlCmdCfg) (mem' : List UInt8)
    (ret : Int) : Prop where
  chunks : cmds.map (fun c => (c.wire, c.nbData)) <+:
    (List.range' k (chunkCount len - k)).map (chunk cfg cmd mode addr len)
  part : ∃ m ≤ len - norFlashCtrlBufSize * k, mem' = blit mem (data + norFlashCtrlBufSize * k)
    (bytesAt flash (addr + norFlashCtrlBufSize * k) m)
  whole : ret = 0 →
    cmds.map (fun c => (c.wire, c.nbData)) =
      (List.range' k (chunkCount len - k)).map (chunk cfg cmd mode addr len) ∧
    mem' = blit mem (data + norFlashCtrlBufSize * k)
      (bytesAt flash (addr + norFlashCtrlBufSize * k) (len - norFlashCtrlBufSize * k))

variable {ctl : Controller} {aligned : Nat → Bool} {flash : Nat → UInt8} {data : Nat}
variable {mem buf : List UInt8}

theorem blit_nil (mem : List UInt8) (data : Nat) : blit mem data [] = mem := by
  simp [blit]

variable (aligned cmd fuel k) in
/-- One turn of the loop, up to the copy. -/
theorem readLoop_turn (serves : Serves ctl cfg flash) (hready : Ready cfg mode addr c)
    (hbuf : buf.length = norFlashCtrlBufSize) (haddr : addr < 256 ^ cfg.addrBytes)
    (hi : i < len) (hroom : data + (len - i) ≤ mem.length) :
    ∃ nbData buf', nbData = (min norFlashCtrlBufSize (len - i) + 3) / 4 * 4 ∧
      buf'.length = norFlashCtrlBufSize ∧
      readLoop ctl aligned cfg cmd len (fuel + 1) k c addr i data mem buf =
        let c' := { setReadAddr cfg cmd addr c with nbData := nbData }
        let n := min norFlashCtrlBufSize (len - i)
        if ctl.timeout ≤ ctl.polls k then some ([c'], mem, -2)
        else
          (readLoop ctl aligned cfg cmd len fuel (k + 1) c' ((addr + n) % 2 ^ 32) (i + n) (data + n)
            (blit mem data (bytesAt flash addr n)) buf').map fun r => (c' :: r.1, r.2) := by
  set n := min norFlashCtrlBufSize (len - i) with hn
  set nbData := (n + 3) / 4 * 4 with hnb
  have hcur : (if norFlashCtrlBufSize ≤ len - i then norFlashCtrlBufSize else len - i) = n := by
    rw [hn]
    split <;> omega
  have hwords : (if norFlashCtrlBufSize ≤ len - i then n else (n + 3) >>> 2 <<< 2) = nbData := by
    rw [hnb, Nat.shiftLeft_eq, Nat.shiftRight_eq_div_pow]
    unfold norFlashCtrlBufSize at hn ⊢
    split <;> omega
  have hle : n ≤ norFlashCtrlBufSize := Nat.min_le_left _ _
  have hasked : nbData ≤ norFlashCtrlBufSize := by
    unfold norFlashCtrlBufSize at hle ⊢
    omega
  set c' : SfCtrlCmdCfg := { setReadAddr cfg cmd addr c with nbData := nbData } with hc'
  have hwire : c'.wire = cfg.command cmd addr mode := hready.wire haddr cmd nbData
  obtain ⟨hlength, hserved⟩ := serves c' buf (hready.next cmd nbData).rwFlag hbuf hasked
  rw [addr_of_wire hwire haddr] at hserved
  have hbytes : (ctl.answer c' buf).take n = bytesAt flash addr n := by
    have hmore : n ≤ nbData := by omega
    have htake := congrArg (List.take n) hserved
    rw [List.take_take, Nat.min_eq_left hmore] at htake
    rw [htake]
    exact take_bytesAt flash addr hmore
  have hcopy : archMemcpyFast (aligned k) mem data (ctl.answer c' buf) n =
      some (blit mem data (bytesAt flash addr n)) := by
    rw [archMemcpyFast_eq _ (by omega) (by rw [hlength]; exact hle), hbytes]
  refine ⟨nbData, ctl.answer c' buf, rfl, hlength, ?_⟩
  rw [readLoop, if_pos hi]
  simp only [hcur, hwords, ← hc', hcopy, Option.bind_some]

theorem range_chunks (hi : norFlashCtrlBufSize * k < len) :
    List.range' k (chunkCount len - k) = k :: List.range' (k + 1) (chunkCount len - (k + 1)) := by
  have hcount : chunkCount len - k = chunkCount len - (k + 1) + 1 := by
    unfold chunkCount
    unfold norFlashCtrlBufSize at hi ⊢
    omega
  rw [hcount, List.range'_succ]

/-- A turn that is not the last, and what comes after it. -/
theorem Delivers.turn {c' : SfCtrlCmdCfg} {cmds : List SfCtrlCmdCfg} {mem' : List UInt8} {ret : Int}
    (hi : norFlashCtrlBufSize * (k + 1) < len) (hroom : data + len ≤ mem.length)
    (hc' : (c'.wire, c'.nbData) = chunk cfg cmd mode addr len k)
    (h : Delivers cfg flash cmd mode addr data len (k + 1)
      (blit mem (data + norFlashCtrlBufSize * k)
        (bytesAt flash (addr + norFlashCtrlBufSize * k) norFlashCtrlBufSize)) cmds mem' ret) :
    Delivers cfg flash cmd mode addr data len k mem (c' :: cmds) mem' ret := by
  have hlt : norFlashCtrlBufSize * k + norFlashCtrlBufSize < len := by
    rw [← Nat.mul_succ]
    exact hi
  have hfront := length_bytesAt flash (addr + norFlashCtrlBufSize * k) norFlashCtrlBufSize
  have htwo : ∀ m, blit (blit mem (data + norFlashCtrlBufSize * k)
        (bytesAt flash (addr + norFlashCtrlBufSize * k) norFlashCtrlBufSize))
        (data + norFlashCtrlBufSize * (k + 1))
        (bytesAt flash (addr + norFlashCtrlBufSize * (k + 1)) m) =
      blit mem (data + norFlashCtrlBufSize * k)
        (bytesAt flash (addr + norFlashCtrlBufSize * k) (norFlashCtrlBufSize + m)) := by
    intro m
    rw [bytesAt_add, ← blit_blit (by rw [hfront]; omega), hfront, Nat.mul_succ, Nat.add_assoc,
      Nat.add_assoc]
  have hrest : norFlashCtrlBufSize + (len - norFlashCtrlBufSize * (k + 1)) =
      len - norFlashCtrlBufSize * k := by
    rw [Nat.mul_succ]
    omega
  constructor
  · rw [range_chunks (by omega), List.map_cons, List.map_cons, hc']
    exact List.cons_prefix_cons.mpr ⟨rfl, h.chunks⟩
  · obtain ⟨m, hm, hmem⟩ := h.part
    exact ⟨norFlashCtrlBufSize + m, by omega, hmem.trans (htwo m)⟩
  · intro hret
    obtain ⟨hchunks, hmem⟩ := h.whole hret
    rw [range_chunks (by omega), List.map_cons, List.map_cons, hc', hchunks]
    refine ⟨rfl, ?_⟩
    rw [hmem, htwo, hrest]

/-- The loop delivers what is left. -/
theorem readLoop_delivers (serves : Serves ctl cfg flash)
    (hready : Ready cfg mode (addr + norFlashCtrlBufSize * k) c)
    (hbuf : buf.length = norFlashCtrlBufSize) (hroom : data + len ≤ mem.length)
    (hrange : addr + len ≤ 256 ^ cfg.addrBytes) (hfuel : len - norFlashCtrlBufSize * k < fuel) :
    ∃ cmds mem' ret, readLoop ctl aligned cfg cmd len fuel k c (addr + norFlashCtrlBufSize * k)
        (norFlashCtrlBufSize * k) (data + norFlashCtrlBufSize * k) mem buf =
          some (cmds, mem', ret) ∧
      Delivers cfg flash cmd mode addr data len k mem cmds mem' ret ∧
      ((∀ j, ctl.polls j < ctl.timeout) → ret = 0) := by
  induction fuel generalizing k c mem buf with
  | zero => omega
  | succ fuel ih =>
    by_cases hi : norFlashCtrlBufSize * k < len
    · have haddr : addr + norFlashCtrlBufSize * k < 256 ^ cfg.addrBytes := by omega
      have hroom' : data + norFlashCtrlBufSize * k + (len - norFlashCtrlBufSize * k) ≤
          mem.length := by omega
      obtain ⟨nbData, buf', hnb, hbuf', hturn⟩ :=
        readLoop_turn cmd k fuel aligned serves hready hbuf haddr hi hroom'
      set c' : SfCtrlCmdCfg :=
        { setReadAddr cfg cmd (addr + norFlashCtrlBufSize * k) c with nbData := nbData }
      have hc' : (c'.wire, c'.nbData) = chunk cfg cmd mode addr len k :=
        Prod.ext (hready.wire haddr cmd nbData) hnb
      rw [hturn]
      dsimp only
      by_cases hbusy : ctl.timeout ≤ ctl.polls k
      · rw [if_pos hbusy]
        refine ⟨[c'], mem, -2, rfl, ⟨?_, ⟨0, Nat.zero_le _, (blit_nil _ _).symm⟩, by simp⟩,
          fun hidle => ?_⟩
        · rw [range_chunks hi, List.map_cons, List.map_cons, hc']
          exact List.cons_prefix_cons.mpr ⟨rfl, List.nil_prefix⟩
        · exact absurd (hidle k) (Nat.not_lt.mpr hbusy)
      rw [if_neg hbusy]
      by_cases hlast : len ≤ norFlashCtrlBufSize * (k + 1)
      · -- the next turn finds nothing left
        obtain ⟨fuel, rfl⟩ : ∃ m, fuel = m + 1 := ⟨fuel - 1, by omega⟩
        have hn : min norFlashCtrlBufSize (len - norFlashCtrlBufSize * k) =
            len - norFlashCtrlBufSize * k := by
          rw [Nat.mul_succ] at hlast
          omega
        have hend : norFlashCtrlBufSize * k + (len - norFlashCtrlBufSize * k) = len := by omega
        have hone : List.range' (k + 1) (chunkCount len - (k + 1)) = [] := by
          rw [List.range'_eq_nil_iff]
          unfold chunkCount
          unfold norFlashCtrlBufSize at hlast ⊢
          omega
        rw [hn, hend, readLoop, if_neg (Nat.lt_irrefl len), Option.map_some]
        refine ⟨[c'], _, 0, rfl, ⟨?_, ⟨_, Nat.le_refl _, rfl⟩, fun _ => ⟨?_, rfl⟩⟩, fun _ => rfl⟩
        · rw [range_chunks hi, hone, List.map_cons, List.map_cons, hc']
          exact List.prefix_refl _
        · rw [range_chunks hi, hone, List.map_cons, List.map_cons, hc']
          rfl
      · have hmore : norFlashCtrlBufSize * (k + 1) < len := Nat.not_le.mp hlast
        have hsucc : norFlashCtrlBufSize * (k + 1) =
            norFlashCtrlBufSize * k + norFlashCtrlBufSize := Nat.mul_succ _ _
        have hn : min norFlashCtrlBufSize (len - norFlashCtrlBufSize * k) =
            norFlashCtrlBufSize := by omega
        have hlimit : 256 ^ cfg.addrBytes ≤ 2 ^ 32 := by
          unfold SpiFlashCfg.addrBytes
          split <;> decide
        have hwrap : (addr + norFlashCtrlBufSize * k + norFlashCtrlBufSize) % 2 ^ 32 =
            addr + norFlashCtrlBufSize * (k + 1) := by
          rw [Nat.mod_eq_of_lt (by omega), hsucc, Nat.add_assoc]
        have hready' : Ready cfg mode (addr + norFlashCtrlBufSize * (k + 1)) c' := by
          rw [hsucc, ← Nat.add_assoc]
          exact hready.next cmd nbData
        set mem₁ := blit mem (data + norFlashCtrlBufSize * k)
          (bytesAt flash (addr + norFlashCtrlBufSize * k) norFlashCtrlBufSize)
        have hmem₁ : data + len ≤ mem₁.length := by
          rw [length_blit (by rw [length_bytesAt]; omega)]
          exact hroom
        have hstep : 0 < norFlashCtrlBufSize := by decide
        obtain ⟨cmds, mem', ret, hrun, hdelivers, hret⟩ := ih hready' hbuf' hmem₁ (by omega)
        rw [hn, hwrap, ← hsucc, Nat.add_assoc data, ← hsucc, hrun, Option.map_some]
        exact ⟨c' :: cmds, mem', ret, rfl, hdelivers.turn hmore hroom hc', hret⟩
    · have hnone : chunkCount len - k = 0 := by
        unfold chunkCount norFlashCtrlBufSize
        unfold norFlashCtrlBufSize at hi
        omega
      have hrest : len - norFlashCtrlBufSize * k = 0 := by omega
      refine ⟨[], mem, 0, by rw [readLoop, if_neg hi],
        ⟨?_, ⟨0, Nat.zero_le _, ?_⟩, fun _ => ⟨?_, ?_⟩⟩, fun _ => rfl⟩
      · exact List.nil_prefix
      · exact (blit_nil _ _).symm
      · rw [hnone]
        rfl
      · rw [hrest]
        exact (blit_nil _ _).symm

/-! ## A program -/

theorem programMode_cleared {ioMode : UInt8} (h : programMode cfg ioMode = some (c, cmd)) :
    c.cmdBuf1 = 0 := by
  unfold programMode SfCtrlCmdCfg.cleared at h
  dsimp only at h
  split at h
  · cases h
    rfl
  · split at h
    · cases h
      rfl
    · cases h

/-- The command is set up for page programs. -/
structure Primed (cfg : SpiFlashCfg) (c : SfCtrlCmdCfg) : Prop where
  addrSize : c.addrSize = cfg.addrBytes
  word24 : cfg.is32BitsAddr = false → c.cmdBuf1 = 0

theorem Primed.next (h : Primed cfg c) (cmd : UInt8) (addr nbData : Nat) :
    Primed cfg { setProgramAddr cfg cmd addr c with nbData := nbData } := by
  unfold setProgramAddr
  constructor
  · split <;> exact h.addrSize
  · intro h24
    rw [if_neg (by simp [h24])]
    exact h.word24 h24

theorem Primed.wire (h : Primed cfg c) (haddr : addr < 256 ^ cfg.addrBytes) (cmd : UInt8)
    (nbData : Nat) : SfCtrlCmdCfg.wire { setProgramAddr cfg cmd addr c with nbData := nbData } =
      cfg.command cmd addr none := by
  unfold SpiFlashCfg.addrBytes at haddr
  unfold setProgramAddr
  cases h32 : cfg.is32BitsAddr with
  | true =>
    rw [h32, if_pos rfl] at haddr
    rw [if_pos rfl]
    exact wire_words h32 haddr rfl (by simp) h.addrSize
  | false =>
    rw [h32, if_neg (by simp)] at haddr
    rw [if_neg (by simp)]
    exact wire_word h32 haddr rfl (by simp [h.word24 h32]) h.addrSize

/-- A page program that stays in its page. -/
def InPage (cfg : SpiFlashCfg) (cmd : UInt8) (c : SfCtrlCmdCfg) : Prop :=
  c.wire = cfg.command cmd (c.addr cfg) none ∧ 0 < c.nbData ∧
    c.addr cfg % cfg.pageSize.toNat + c.nbData ≤ cfg.pageSize.toNat

/-- The page programs stay in their pages and write the data from byte `i` on, as far as they
have come; where the result is 0 that is to the end. -/
structure Programs (cfg : SpiFlashCfg) (cmd : UInt8) (addr : Nat) (data : List UInt8) (i : Nat)
    (cmds : List (SfCtrlCmdCfg × List UInt8)) (ret : Int) : Prop where
  inPage : ∀ p ∈ cmds, InPage cfg cmd p.1
  part : programmed cfg cmds <+: (data.drop i).zipIdx (addr + i)
  whole : ret = 0 → programmed cfg cmds = (data.drop i).zipIdx (addr + i)

variable {chip : Chip} {bytes : List UInt8} {a : Nat}

/-- What a page program writes: the bytes put into the controller's buffer. -/
theorem programmed_cons {c' : SfCtrlCmdCfg} {buf : List UInt8}
    (haddr : c'.addr cfg = addr + i) (hbuf : buf.take c'.nbData = (bytes.drop i).take c'.nbData)
    (cmds : List (SfCtrlCmdCfg × List UInt8)) :
    programmed cfg ((c', buf) :: cmds) =
      ((bytes.drop i).take c'.nbData).zipIdx (addr + i) ++ programmed cfg cmds := by
  simp only [programmed, List.flatMap_cons, hbuf, haddr]

/-- The next `n` bytes with their addresses, and the rest. -/
theorem zipIdx_split (addr : Nat) (hn : i + n ≤ bytes.length) :
    (bytes.drop i).zipIdx (addr + i) = ((bytes.drop i).take n).zipIdx (addr + i) ++
      (bytes.drop (i + n)).zipIdx (addr + (i + n)) := by
  have hlength : ((bytes.drop i).take n).length = n := by
    rw [List.length_take, List.length_drop]
    omega
  have hsplit : bytes.drop i = (bytes.drop i).take n ++ bytes.drop (i + n) := by
    rw [← List.drop_drop, List.take_append_drop]
  calc (bytes.drop i).zipIdx (addr + i)
      = ((bytes.drop i).take n ++ bytes.drop (i + n)).zipIdx (addr + i) := by rw [← hsplit]
    _ = _ := by rw [List.zipIdx_append, hlength, Nat.add_assoc]

variable (aligned cmd fuel c) in
/-- One turn of the loop. -/
theorem programLoop_turn (hpage : 0 < cfg.pageSize.toNat)
    (hfits : cfg.pageSize.toNat ≤ norFlashCtrlBufSize)
    (hbuf : (chip.ctrlBuf k).length = norFlashCtrlBufSize) (hi : i < bytes.length)
    (henable : chip.writeEnable k = 0) :
    ∃ n buf, n = min (cfg.pageSize.toNat - a % cfg.pageSize.toNat) (bytes.length - i) ∧
      buf.take n = (bytes.drop i).take n ∧
      programLoop chip aligned cfg cmd bytes (fuel + 1) k c a i =
        let c' := { setProgramAddr cfg cmd a c with nbData := n }
        if cfg.timePagePgm.toNat * 20 < chip.polls k then some ([(c', buf)], -1)
        else
          (programLoop chip aligned cfg cmd bytes fuel (k + 1) c' ((a + n) % 2 ^ 32)
            (i + n)).map fun r => ((c', buf) :: r.1, r.2) := by
  set n := min (cfg.pageSize.toNat - a % cfg.pageSize.toNat) (bytes.length - i) with hn
  have hcur : (if bytes.length - i < cfg.pageSize.toNat - a % cfg.pageSize.toNat
      then bytes.length - i else cfg.pageSize.toNat - a % cfg.pageSize.toNat) = n := by
    rw [hn]
    split <;> omega
  have hzero : cfg.pageSize ≠ 0 := by
    intro h
    rw [h] at hpage
    exact Nat.lt_irrefl 0 hpage
  have htake : ((bytes.drop i).take n).length = n := by
    rw [List.length_take, List.length_drop]
    omega
  have hcopy : archMemcpyFast (aligned k) (chip.ctrlBuf k) 0 (bytes.drop i) n =
      some (blit (chip.ctrlBuf k) 0 ((bytes.drop i).take n)) :=
    archMemcpyFast_eq _ (by omega) (by rw [List.length_drop]; omega)
  refine ⟨n, blit (chip.ctrlBuf k) 0 ((bytes.drop i).take n), rfl, ?_, ?_⟩
  · unfold blit
    rw [List.take_zero, List.nil_append, List.take_left' htake]
  · rw [programLoop, if_pos hi, if_neg (not_not.mpr henable), if_neg hzero]
    simp only [hcur, hcopy, Option.bind_some]

/-- The loop programs what is left. -/
theorem programLoop_programs (hpage : 0 < cfg.pageSize.toNat)
    (hfits : cfg.pageSize.toNat ≤ norFlashCtrlBufSize)
    (hbuf : ∀ j, (chip.ctrlBuf j).length = norFlashCtrlBufSize)
    (hrange : addr + bytes.length ≤ 256 ^ cfg.addrBytes) (hprimed : Primed cfg c)
    (ha : i < bytes.length → a = addr + i) (hfuel : bytes.length - i < fuel) :
    ∃ cmds ret, programLoop chip aligned cfg cmd bytes fuel k c a i = some (cmds, ret) ∧
      Programs cfg cmd addr bytes i cmds ret ∧
      ((∀ j, chip.writeEnable j = 0 ∧ chip.polls j ≤ cfg.timePagePgm.toNat * 20) → ret = 0) := by
  induction fuel generalizing k c a i with
  | zero => omega
  | succ fuel ih =>
    by_cases hi : i < bytes.length
    · by_cases henable : chip.writeEnable k = 0
      · obtain rfl := ha hi
        obtain ⟨n, buf, hn, htake, hturn⟩ :=
          programLoop_turn cmd fuel c aligned hpage hfits (hbuf k) hi henable
        have haddr : addr + i < 256 ^ cfg.addrBytes := by omega
        set c' : SfCtrlCmdCfg := { setProgramAddr cfg cmd (addr + i) c with nbData := n } with hc'
        have hwire : c'.wire = cfg.command cmd (addr + i) none := hprimed.wire haddr cmd n
        have haddr' : c'.addr cfg = addr + i := addr_of_wire hwire haddr
        have hmod := Nat.mod_lt (addr + i) hpage
        have hin : InPage cfg cmd c' := by
          refine ⟨by rw [haddr', hwire], ?_, ?_⟩
          · exact show 0 < n by omega
          · rw [haddr']
            exact show (addr + i) % cfg.pageSize.toNat + n ≤ cfg.pageSize.toNat by omega
        have hfirst : ∀ cmds, programmed cfg ((c', buf) :: cmds) =
            ((bytes.drop i).take n).zipIdx (addr + i) ++ programmed cfg cmds :=
          programmed_cons haddr' htake
        have hsplit : (bytes.drop i).zipIdx (addr + i) =
            ((bytes.drop i).take n).zipIdx (addr + i) ++
              (bytes.drop (i + n)).zipIdx (addr + (i + n)) := zipIdx_split addr (by omega)
        rw [hturn]
        dsimp only
        by_cases hbusy : cfg.timePagePgm.toNat * 20 < chip.polls k
        · rw [if_pos hbusy]
          refine ⟨[(c', buf)], -1, rfl, ⟨?_, ?_, by simp⟩, fun hall => ?_⟩
          · intro p hp
            obtain rfl := List.mem_singleton.mp hp
            exact hin
          · rw [hfirst, hsplit]
            exact (List.prefix_append_right_inj _).mpr List.nil_prefix
          · exact absurd (hall k).2 (Nat.not_le.mpr hbusy)
        · rw [if_neg hbusy]
          have hlimit : 256 ^ cfg.addrBytes ≤ 2 ^ 32 := by
            unfold SpiFlashCfg.addrBytes
            split <;> decide
          have ha' : i + n < bytes.length → (addr + i + n) % 2 ^ 32 = addr + (i + n) := by
            intro hlt
            rw [Nat.mod_eq_of_lt (by omega), Nat.add_assoc]
          obtain ⟨cmds, ret, hrun, hprograms, hret⟩ :=
            ih (k := k + 1) (hprimed.next cmd (addr + i) n) ha' (by omega)
          rw [hrun, Option.map_some]
          refine ⟨(c', buf) :: cmds, ret, rfl, ⟨?_, ?_, fun hzero => ?_⟩, hret⟩
          · intro p hp
            rcases List.mem_cons.mp hp with rfl | hp
            · exact hin
            · exact hprograms.inPage p hp
          · rw [hfirst, hsplit]
            exact (List.prefix_append_right_inj _).mpr hprograms.part
          · rw [hfirst, hsplit, hprograms.whole hzero]
      · refine ⟨[], chip.writeEnable k, ?_, ⟨by simp, List.nil_prefix, fun hret => ?_⟩,
          fun hall => ?_⟩
        · rw [programLoop, if_pos hi, if_pos henable]
        · exact absurd hret henable
        · exact (hall k).1
    · refine ⟨[], 0, by rw [programLoop, if_neg hi], ⟨by simp, List.nil_prefix, fun _ => ?_⟩,
        fun _ => rfl⟩
      rw [List.drop_eq_nil_of_le (Nat.not_lt.mp hi)]
      rfl

/-! ## The calls -/

/-- Whatever the flash does, a call of `bflb_sflash_program` over a range of addresses comes to
an end, and its page programs stay in their pages and write the bytes one after the other, each
once, to the end if the flash enables every write and is done in time. -/
def ProgramsExactly (cfg : SpiFlashCfg) : Prop :=
  ∀ (chip : Chip) (aligned : Nat → Bool) (ioMode : UInt8) (addr : Nat) (bytes : List UInt8)
    (fuel : Nat), (∀ k, (chip.ctrlBuf k).length = norFlashCtrlBufSize) →
    addr + bytes.length ≤ 256 ^ cfg.addrBytes → bytes.length < fuel →
    ∃ cmds ret, bflbSflashProgram chip aligned fuel cfg ioMode addr bytes = some (cmds, ret) ∧
      match programMode cfg ioMode with
      | none => cmds = [] ∧ ret = -1
      | some (_, cmd) =>
        Programs cfg cmd addr bytes 0 cmds ret ∧
          ((∀ k, chip.writeEnable k = 0 ∧ chip.polls k ≤ cfg.timePagePgm.toNat * 20) → ret = 0)

/-- The same for `bflb_sflash_read`: it reads the chunks of the range one after the other and
puts each byte in its place, and nothing elsewhere. -/
def ReadsExactly (cfg : SpiFlashCfg) : Prop :=
  ∀ (ctl : Controller) (flash : Nat → UInt8) (aligned : Nat → Bool) (ioMode : UInt8)
    (contRead : Bool) (addr data len : Nat) (mem buf : List UInt8) (fuel : Nat),
    Serves ctl cfg flash → buf.length = norFlashCtrlBufSize → data + len ≤ mem.length →
    addr + len ≤ 256 ^ cfg.addrBytes → len < fuel →
    ∃ cmds mem' ret,
      bflbSflashRead ctl aligned fuel cfg ioMode contRead addr data len mem buf =
        some (cmds, mem', ret) ∧
      match readMode cfg ioMode with
      | none => cmds = [] ∧ mem' = mem ∧ ret = -1
      | some (_, cmd) =>
        Delivers cfg flash cmd (contReadMode cfg ioMode contRead) addr data len 0 mem cmds mem'
            ret ∧
          ((∀ k, ctl.polls k < ctl.timeout) → ret = 0)

theorem programsExactly_of_pageSize (hpage : 0 < cfg.pageSize.toNat)
    (hfits : cfg.pageSize.toNat ≤ norFlashCtrlBufSize) : ProgramsExactly cfg := by
  intro chip aligned ioMode addr bytes fuel hbuf hrange hfuel
  unfold bflbSflashProgram
  cases hmode : programMode cfg ioMode with
  | none => exact ⟨[], -1, rfl, rfl, rfl⟩
  | some p =>
    obtain ⟨c, cmd⟩ := p
    have hzero := programMode_cleared hmode
    have hprimed : Primed cfg
        { c with rwFlag := sfCtrlWrite, addrSize := if cfg.is32BitsAddr then 4 else 3 } :=
      ⟨rfl, fun _ => hzero⟩
    obtain ⟨cmds, ret, hrun, hprograms, hret⟩ :=
      programLoop_programs (k := 0) (i := 0) hpage hfits hbuf hrange hprimed (fun _ => rfl)
        (by omega)
    exact ⟨cmds, ret, hrun, hprograms, hret⟩

theorem readsExactly (cfg : SpiFlashCfg) : ReadsExactly cfg := by
  intro ctl flash aligned ioMode contRead addr data len mem buf fuel serves hbuf hroom hrange hfuel
  unfold bflbSflashRead
  cases hmode : readMode cfg ioMode with
  | none =>
    have hprepare : prepareRead cfg ioMode contRead = none := by
      unfold prepareRead
      rw [hmode]
      rfl
    rw [hprepare]
    exact ⟨[], mem, -1, rfl, rfl, rfl, rfl⟩
  | some p =>
    obtain ⟨c₀, cmd⟩ := p
    obtain ⟨c, hprepare⟩ : ∃ c, prepareRead cfg ioMode contRead = some (c, cmd) := by
      unfold prepareRead
      rw [hmode, Option.map_some]
      dsimp only
      split <;> exact ⟨_, rfl⟩
    rw [hprepare]
    have hready := ready_of_prepareRead hprepare (addr + norFlashCtrlBufSize * 0)
    exact readLoop_delivers (k := 0) serves hready hbuf hroom hrange (by omega)

/-- With pages of a positive size that fit the controller's buffer both calls are exact. -/
theorem sflash_transfer_exact (cfg : SpiFlashCfg) (hpage : 0 < cfg.pageSize.toNat)
    (hfits : cfg.pageSize.toNat ≤ norFlashCtrlBufSize) :
    ProgramsExactly cfg ∧ ReadsExactly cfg :=
  ⟨programsExactly_of_pageSize hpage hfits, readsExactly cfg⟩

/-- A flash of four address bytes that reads over four lines in continuous mode. -/
def quadFlash : SpiFlashCfg where
  ioMode := 0x24
  cReadSupport := 0x01
  pageSize := 256
  pageProgramCmd := 0x02
  qpageProgramCmd := 0x32
  qppAddrMode := 0
  fastReadCmd := 0x0b
  frDmyClk := 1
  fastReadDoCmd := 0x3b
  frDoDmyClk := 1
  fastReadDioCmd := 0xbb
  frDioDmyClk := 0
  fastReadQoCmd := 0x6b
  frQoDmyClk := 1
  fastReadQioCmd := 0xeb
  frQioDmyClk := 2
  cReadMode := 0x20
  timePagePgm := 5

/-- A controller that is never busy and fetches what it is asked for. -/
def readyController (flash : Nat → UInt8) : Controller where
  answer c buf := blit buf 0 (bytesAt flash (c.addr quadFlash) c.nbData)
  polls _ := 0
  timeout := 1

theorem readyController_serves (flash : Nat → UInt8) :
    Serves (readyController flash) quadFlash flash := by
  intro c buf _ hbuf hasked
  have hlength := length_bytesAt flash (c.addr quadFlash) c.nbData
  refine ⟨?_, ?_⟩
  · exact (length_blit (by omega)).trans hbuf
  · exact List.take_left' hlength

def readyChip : Chip := ⟨fun _ => 0, fun _ => List.replicate norFlashCtrlBufSize 0, fun _ => 0⟩

/-- 300 bytes from the middle of a page are programmed and read back. -/
theorem sflash_transfer_exact_quad :
    (∃ cmds, bflbSflashProgram readyChip (fun _ => false) 301 quadFlash sfCtrlQioMode 0x01fffff0
        (List.replicate 300 0xa5) = some (cmds, 0) ∧
      programmed quadFlash cmds = (List.replicate 300 0xa5).zipIdx 0x01fffff0) ∧
    ∃ cmds, bflbSflashRead (readyController fun a => UInt8.ofNat a) (fun _ => true) 301 quadFlash
        sfCtrlQioMode true 0x01fffff0 2 300 (List.replicate 310 0)
        (List.replicate norFlashCtrlBufSize 0) =
          some (cmds, blit (List.replicate 310 0) 2
            (bytesAt (fun a => UInt8.ofNat a) 0x01fffff0 300), 0) := by
  obtain ⟨hprograms, hreads⟩ := sflash_transfer_exact quadFlash (by decide) (by decide)
  have hlength : ∀ (n : Nat) (b : UInt8), (List.replicate n b).length = n := fun n b =>
    List.length_replicate
  constructor
  · have hrange : 0x01fffff0 + (List.replicate 300 (0xa5 : UInt8)).length ≤
        256 ^ quadFlash.addrBytes := by
      rw [hlength]
      decide
    obtain ⟨cmds, ret, hrun, hprogram, hret⟩ := hprograms readyChip (fun _ => false) sfCtrlQioMode
      0x01fffff0 (List.replicate 300 0xa5) 301 (fun _ => hlength _ _) hrange
      (by rw [hlength]; decide)
    obtain rfl := hret fun _ => ⟨rfl, Nat.zero_le _⟩
    exact ⟨cmds, hrun, hprogram.whole rfl⟩
  · obtain ⟨cmds, mem', ret, hrun, hdelivers, hret⟩ :=
      hreads (readyController fun a => UInt8.ofNat a) (fun a => UInt8.ofNat a) (fun _ => true)
        sfCtrlQioMode true 0x01fffff0 2 300 (List.replicate 310 0)
        (List.replicate norFlashCtrlBufSize 0) 301 (readyController_serves fun a => UInt8.ofNat a)
        (hlength _ _) (by rw [hlength]; decide) (by decide) (by decide)
    obtain rfl := hret fun _ => Nat.zero_lt_one
    obtain ⟨-, rfl⟩ := hdelivers.whole rfl
    exact ⟨cmds, hrun⟩

/-- Without a page size the first turn of a program divides by zero. -/
theorem page_size_zero_not_exact :
    ¬ ∀ cfg : SpiFlashCfg, cfg.pageSize.toNat ≤ norFlashCtrlBufSize →
      ProgramsExactly cfg ∧ ReadsExactly cfg := by
  intro hall
  obtain ⟨cmds, ret, hrun, -⟩ := (hall { quadFlash with pageSize := 0 } (by decide)).1 readyChip
    (fun _ => false) sfCtrlNioMode 0 [0xa5] 2 (fun _ => List.length_replicate) (by decide)
    (by decide)
  have hnone : bflbSflashProgram readyChip (fun _ => false) 2 { quadFlash with pageSize := 0 }
      sfCtrlNioMode 0 [0xa5] = none := by decide
  rw [hnone] at hrun
  cases hrun

end BouffaloSdk.SflashTransfer
