import BouffaloSdk.HostRouter.SdioMsgHandlers
import BouffaloSdk.Kit.Runs

/-!
# What the host may read of a PDU

Where the frames that the host driver hands on lie within the PDUs that they
were found in. The lengths on the wire that the driver does not check are the
conditions.
-/

namespace BouffaloSdk.SdioMsgHandlers
open Kit.Word Kit.Runs

/-! ## Valid bytes -/

/-- The end of the valid bytes in the first PDU. -/
def firstEnd (mem : Mem) (pdu1 : Nat) : Nat :=
  let msg := topMsg mem pdu1
  pdu1 + min (msg.pldOff + if msg.isAmsdu then min msg.firstPartLen msg.len else msg.len) sdRxBufLen

/-- The end of the valid bytes in its twin. -/
def twinEnd (mem : Mem) (pdu1 pdu2 : Nat) : Nat :=
  let msg := topMsg mem pdu1
  pdu2 + min (msg.len - msg.firstPartLen) sdRxBufLen

/-- The range is empty, or lies in the valid bytes of one of the PDUs. -/
def RangeInside (mem : Mem) (pdu1 pdu2 a n : Nat) : Prop :=
  n = 0 ∨ (pdu1 + (topMsg mem pdu1).pldOff ≤ a ∧ a + n ≤ firstEnd mem pdu1) ∨
    (pdu2 ≠ 0 ∧ pdu2 ≤ a ∧ a + n ≤ twinEnd mem pdu1 pdu2)

instance (mem : Mem) (pdu1 pdu2 a n : Nat) : Decidable (RangeInside mem pdu1 pdu2 a n) :=
  inferInstanceAs (Decidable (_ ∨ _ ∨ _))

structure EthFrame.Inside (mem : Mem) (f : EthFrame) : Prop where
  hdr : f.hdrAt ≠ 0 → RangeInside mem f.pdu1 f.pdu2 f.hdrAt sizeofEthHdr
  p1 : RangeInside mem f.pdu1 f.pdu2 f.p1 f.len1
  p2 : RangeInside mem f.pdu1 f.pdu2 f.p2 f.len2

/-- A handling comes to an end without a bad access, and all that it hands on
is inside. -/
def HandledInside (mem : Mem) (result : Option Handled) : Prop :=
  ∃ r, result = some r ∧ r.crashed = false ∧ ∀ f ∈ r.frames, f.Inside mem

/-- The batch is read to its end, each PDU once, and every turn stays inside. -/
structure ReadsInside (h : Host) (b : Batch) (_ : Host) : Prop where
  inside : ∀ r ∈ (h.readings b).1, HandledInside (h.seen b.mem) r.result
  consumed : (h.readings b).1.flatMap Reading.pdus = b.pdus

/-! ## The checks that are missing -/

/-- An empty payload, or one that ends where it has to. -/
def Ends (a n limit : Nat) : Prop := n = 0 ∨ a + n ≤ limit

/-- At a subframe whose MSDU is not refused: a header that crosses the tail
starts before it; what crosses has a twin to go on in; the MSDU has room for
its LLC header; and the payload ends within the valid bytes. -/
def TurnFits (mem : Mem) (copy : List UInt8) (pdu1 pdu2 : Nat) (w : Walk) : Prop :=
  if w.subfrm + sizeofAmsduSubframe > w.tail then
    w.pdu2Consumed ∨ (w.subfrm ≤ w.tail ∧
      let len0 := w.tail - w.subfrm
      let n := msduLen (headerCopy mem copy w.subfrm len0 pdu2)
      1508 < n ∨ (pdu2 ≠ 0 ∧ sizeofLlcSnap ≤ n ∧
        Ends (pdu2 + (sizeofAmsduSubframe - len0)) (n - sizeofLlcSnap) (twinEnd mem pdu1 pdu2)))
  else
    let n := msduLen (read mem w.subfrm sizeofAmsduSubframe)
    let pld := w.subfrm + sizeofAmsduSubframe
    let next := w.subfrm + (sizeofAmsduSubframe - sizeofLlcSnap + n)
    1508 < n ∨
      if next > w.tail then
        w.pdu2Consumed ∨ (pdu2 ≠ 0 ∧ Ends pld (w.tail - pld) (firstEnd mem pdu1) ∧
          Ends pdu2 (next - w.tail) (twinEnd mem pdu1 pdu2))
      else
        sizeofLlcSnap ≤ n ∧ Ends pld (n - sizeofLlcSnap)
          (if w.pdu2Consumed then twinEnd mem pdu1 pdu2 else firstEnd mem pdu1)

/-- Every subframe that the loop gets to fits. -/
def WalkFits (mem : Mem) (copy : List UInt8) (pdu1 pdu2 : Nat) : Nat → Walk → Prop
  | 0, _ => True
  | turns + 1, w =>
    TurnFits mem copy pdu1 pdu2 w ∧
      match amsduTurn mem copy pdu1 pdu2 w with
      | .more _ w => WalkFits mem copy pdu1 pdu2 turns w
      | _ => True

def AmsduFits (mem : Mem) (copy : List UInt8) (pdu1 pdu2 : Nat) : Prop :=
  amsduSane (topMsg mem pdu1) pdu2 →
    WalkFits mem copy pdu1 pdu2 (topMsg mem pdu1).len.succ (amsduStart mem pdu1)

/-- Every PDU of the batch fits: a payload lies within its PDU, unless nothing
follows, and a frame has an Ethernet header. -/
def PdusFit (mem : Mem) (copy : List UInt8) : Option Nat → List Nat → Prop
  | _, [] => True
  | some saved, pdu :: rest => AmsduFits mem copy saved pdu ∧ PdusFit mem copy none rest
  | none, pdu :: rest =>
    let msg := topMsg mem pdu
    if ¬ msg.isAmsdu then
      if ¬ msg.len + msg.pldOff ≤ sdRxBufLen then rest = []
      else (msg.type = bf1bSdioMsgTypeEthFrame → sizeofEthHdr ≤ msg.len) ∧ PdusFit mem copy none rest
    else if msg.hasTwin then
      match rest with
      | [] => True
      | twin :: rest => AmsduFits mem copy pdu twin ∧ PdusFit mem copy none rest
    else AmsduFits mem copy pdu 0 ∧ PdusFit mem copy none rest

def BatchFits (h : Host) (b : Batch) (_ : Host) : Prop :=
  PdusFit (h.seen b.mem) b.copy (if h.savedPduUsed then some h.savedPdu else none) b.pdus

/-! ## One subframe -/

variable {mem : Mem} {copy : List UInt8} {pdu1 pdu2 : Nat} {w w' : Walk} {f : EthFrame}

/-- Where the loop can be: in the first PDU, or in the twin. -/
structure Placed (mem : Mem) (pdu1 pdu2 : Nat) (w : Walk) : Prop where
  first : w.pdu2Consumed = false → pdu1 + (topMsg mem pdu1).pldOff ≤ w.subfrm
  twin : w.pdu2Consumed = true → pdu2 ≠ 0 ∧ pdu2 ≤ w.subfrm
  mapped : pageSize ≤ w.subfrm

/-- A turn without a bad access hands on a frame inside and stays in place. -/
def TurnInside (mem : Mem) (pdu1 pdu2 : Nat) : Turn → Prop
  | .done => True
  | .crash => False
  | .oops _ => False
  | .last f => f.Inside mem
  | .more f w => f.Inside mem ∧ Placed mem pdu1 pdu2 w

theorem rangeInside_of_ends {a n limit : Nat} (h : Ends a n limit)
    (hinside : a + n ≤ limit → RangeInside mem pdu1 pdu2 a n) : RangeInside mem pdu1 pdu2 a n := by
  rcases h with hzero | hend
  · exact .inl hzero
  · exact hinside hend

theorem msduLen_lt (header : List UInt8) : msduLen header < 2 ^ 16 := by
  unfold msduLen
  have hhigh := (header.getD 12 0).toNat_lt
  have hlow := (header.getD 13 0).toNat_lt
  omega

theorem afterFrame_inside {n s : Nat} (hf : f.Inside mem) (hw : Placed mem pdu1 pdu2 w) :
    TurnInside mem pdu1 pdu2 (afterFrame n s f w) := by
  unfold afterFrame
  split
  · exact hf
  · exact ⟨hf, hw.first, hw.twin, hw.mapped⟩

/-- The frame of a subframe whose header crosses the tail, or does not. -/
theorem amsduFrame_inside {header : List UInt8} {p1 len1 p2 len2 : Nat}
    (h1 : RangeInside mem pdu1 pdu2 p1 len1) (h2 : RangeInside mem pdu1 pdu2 p2 len2) :
    (amsduFrame header p1 len1 p2 len2 pdu1 pdu2).Inside mem :=
  ⟨fun h => absurd rfl h, h1, h2⟩

theorem rangeInside_zero {a : Nat} : RangeInside mem pdu1 pdu2 a 0 := .inl rfl

theorem turn_inside (hpdu2 : pdu2 = 0 ∨ pageSize ≤ pdu2) (hw : Placed mem pdu1 pdu2 w)
    (hfits : TurnFits mem copy pdu1 pdu2 w) :
    TurnInside mem pdu1 pdu2 (amsduTurn mem copy pdu1 pdu2 w) := by
  have hmapped := hw.mapped
  unfold TurnFits at hfits
  unfold amsduTurn
  dsimp only
  by_cases hheader : w.subfrm + sizeofAmsduSubframe > w.tail
  · rw [if_pos hheader] at hfits ⊢
    by_cases hconsumed : w.pdu2Consumed = true
    · rw [if_pos hconsumed]
      trivial
    · rw [if_neg hconsumed]
      obtain ⟨htail, hmsdu⟩ := hfits.resolve_left hconsumed
      rw [if_neg (Nat.not_lt.mpr htail)]
      dsimp only at hmsdu
      generalize msduLen (headerCopy mem copy w.subfrm (w.tail - w.subfrm) pdu2) = n at hmsdu ⊢
      by_cases hrefused : n > 1508
      · rw [if_pos hrefused]
        trivial
      · rw [if_neg hrefused]
        obtain ⟨htwin, hllc, hend⟩ := hmsdu.resolve_left hrefused
        have hpage := hpdu2.resolve_left htwin
        rw [if_neg (fun hnull => htwin hnull.1), sub16_eq hllc (by omega)]
        refine afterFrame_inside (amsduFrame_inside ?_ rangeInside_zero) ?_
        · refine rangeInside_of_ends hend fun hlimit => .inr (.inr ⟨htwin, ?_, hlimit⟩)
          omega
        · refine ⟨fun h => (by cases h), fun _ => ⟨htwin, ?_⟩, ?_⟩
          · dsimp only
            omega
          · dsimp only
            omega
  · rw [if_neg hheader] at hfits ⊢
    rw [if_neg (Nat.not_lt.mpr hmapped)]
    dsimp only at hfits
    generalize msduLen (read mem w.subfrm sizeofAmsduSubframe) = n at hfits ⊢
    by_cases hrefused : n > 1508
    · rw [if_pos hrefused]
      trivial
    · rw [if_neg hrefused]
      have hmsdu := hfits.resolve_left hrefused
      have hsizes : sizeofAmsduSubframe = 22 ∧ sizeofLlcSnap = 8 := ⟨rfl, rfl⟩
      by_cases hpayload : w.subfrm + (sizeofAmsduSubframe - sizeofLlcSnap + n) > w.tail
      · rw [if_pos hpayload] at hmsdu ⊢
        by_cases hconsumed : w.pdu2Consumed = true
        · rw [if_pos hconsumed]
          trivial
        · rw [if_neg hconsumed]
          obtain ⟨htwin, hfirst, hend⟩ := hmsdu.resolve_left hconsumed
          have hpage := hpdu2.resolve_left htwin
          have hplace := hw.first (Bool.eq_false_iff.mpr hconsumed)
          have hlen0 : (w.tail - (w.subfrm + sizeofAmsduSubframe)) % 2 ^ 16 =
              w.tail - (w.subfrm + sizeofAmsduSubframe) := Nat.mod_eq_of_lt (by omega)
          have hlen1 : sub16 (sub16 n sizeofLlcSnap) (w.tail - (w.subfrm + sizeofAmsduSubframe)) =
              w.subfrm + (sizeofAmsduSubframe - sizeofLlcSnap + n) - w.tail := by
            rw [sub16_eq (a := n) (by omega) (by omega), sub16_eq (by omega) (by omega)]
            omega
          rw [hlen0, hlen1]
          refine afterFrame_inside (amsduFrame_inside ?_ ?_) ?_
          · refine rangeInside_of_ends hfirst fun hlimit => .inr (.inl ⟨?_, hlimit⟩)
            omega
          · exact rangeInside_of_ends hend fun hlimit => .inr (.inr ⟨htwin, Nat.le_refl _, hlimit⟩)
          · refine ⟨fun h => (by cases h), fun _ => ⟨htwin, ?_⟩, ?_⟩
            · dsimp only
              omega
            · dsimp only
              omega
      · rw [if_neg hpayload] at hmsdu ⊢
        obtain ⟨hllc, hend⟩ := hmsdu
        rw [sub16_eq hllc (by omega)]
        refine afterFrame_inside (amsduFrame_inside ?_ rangeInside_zero) ?_
        · refine rangeInside_of_ends hend fun hlimit => ?_
          by_cases hconsumed : w.pdu2Consumed = true
          · obtain ⟨htwin, hplace⟩ := hw.twin hconsumed
            rw [if_pos hconsumed] at hlimit
            exact .inr (.inr ⟨htwin, by omega, hlimit⟩)
          · have hplace := hw.first (Bool.eq_false_iff.mpr hconsumed)
            rw [if_neg hconsumed] at hlimit
            exact .inr (.inl ⟨by omega, hlimit⟩)
        · refine ⟨fun h => ?_, fun h => ?_, ?_⟩
          · have hplace := hw.first h
            dsimp only
            omega
          · obtain ⟨htwin, hplace⟩ := hw.twin h
            refine ⟨htwin, ?_⟩
            dsimp only
            omega
          · dsimp only
            omega

/-! ## The loop over the subframes -/

theorem afterFrame_more {n s : Nat} {g : EthFrame} {v : Walk}
    (h : afterFrame n s f v = .more g w') (hv : v.lenProcessed = w.lenProcessed)
    (hn : n ≤ 2 ^ 12) (hs : 14 ≤ s) :
    w.lenProcessed < n ∧ w.lenProcessed < w'.lenProcessed := by
  unfold afterFrame at h
  split at h
  · cases h
  · cases h
    dsimp only
    rw [add16_eq (by omega)]
    omega

/-- A turn after which the loop goes on has processed some of the message. -/
theorem amsduTurn_more (hlen : (topMsg mem pdu1).len ≤ 2 ^ 12)
    (h : amsduTurn mem copy pdu1 pdu2 w = .more f w') :
    w.lenProcessed < (topMsg mem pdu1).len ∧ w.lenProcessed < w'.lenProcessed := by
  have hsizes : sizeofAmsduSubframe - sizeofLlcSnap = 14 := rfl
  unfold amsduTurn at h
  dsimp only at h
  split at h
  · split at h
    · cases h
    · split at h
      · cases h
      · split at h
        · cases h
        · split at h
          · cases h
          · exact afterFrame_more h rfl hlen (by rw [hsizes]; exact Nat.le_add_right _ _)
  · split at h
    · cases h
    · split at h
      · cases h
      · split at h
        · split at h
          · cases h
          · exact afterFrame_more h rfl hlen (by rw [hsizes]; exact Nat.le_add_right _ _)
        · exact afterFrame_more h rfl hlen (by rw [hsizes]; exact Nat.le_add_right _ _)

/-- The loop ends, whatever the PDUs hold. -/
theorem amsduLoop_ends (hlen : (topMsg mem pdu1).len ≤ 2 ^ 12) {turns : Nat}
    (hturns : (topMsg mem pdu1).len - w.lenProcessed < turns) :
    (amsduLoop mem copy pdu1 pdu2 turns w).isSome := by
  induction turns generalizing w with
  | zero => exact absurd hturns (Nat.not_lt_zero _)
  | succ turns ih =>
    unfold amsduLoop
    split
    · rfl
    · rfl
    · rfl
    · rfl
    · rename_i f w' hturn
      obtain ⟨hless, hmore⟩ := amsduTurn_more hlen hturn
      rw [Option.isSome_map]
      exact ih (by omega)

theorem handleAmsduPdus_ends (mem : Mem) (copy : List UInt8) (pdu1 pdu2 : Nat) :
    (handleAmsduPdus mem copy pdu1 pdu2).isSome := by
  unfold handleAmsduPdus
  split
  · rename_i hsane
    unfold amsduSane sdRxBufLen sizeofSdioTopMsg at hsane
    simp only [Bool.and_eq_true, decide_eq_true_eq] at hsane
    refine amsduLoop_ends (by omega) ?_
    exact Nat.lt_succ_of_le (Nat.sub_le _ _)
  · rfl

theorem amsduLoop_inside (hpdu2 : pdu2 = 0 ∨ pageSize ≤ pdu2) {turns : Nat}
    (hw : Placed mem pdu1 pdu2 w) (hfits : WalkFits mem copy pdu1 pdu2 turns w)
    (hends : (amsduLoop mem copy pdu1 pdu2 turns w).isSome) :
    HandledInside mem (amsduLoop mem copy pdu1 pdu2 turns w) := by
  induction turns generalizing w with
  | zero => cases hends
  | succ turns ih =>
    obtain ⟨hturn, hrest⟩ := hfits
    have hinside := turn_inside hpdu2 hw hturn
    unfold amsduLoop at hends ⊢
    cases hresult : amsduTurn mem copy pdu1 pdu2 w with
    | done => exact ⟨_, rfl, rfl, fun f hf => by cases hf⟩
    | crash => rw [hresult] at hinside; cases hinside
    | oops f => rw [hresult] at hinside; cases hinside
    | last f =>
      rw [hresult] at hinside
      refine ⟨_, rfl, rfl, fun g hg => ?_⟩
      rw [List.mem_singleton.mp hg]
      exact hinside
    | more f w' =>
      rw [hresult] at hinside hrest hends
      obtain ⟨hf, hw'⟩ := hinside
      dsimp only at hends hrest ⊢
      rw [Option.isSome_map] at hends
      obtain ⟨r, hr, hcrashed, hframes⟩ := ih hw' hrest hends
      rw [hr]
      refine ⟨_, rfl, hcrashed, fun g hg => ?_⟩
      rcases List.mem_cons.mp hg with rfl | hg
      · exact hf
      · exact hframes g hg

theorem handleAmsduPdus_inside (hpdu1 : pageSize ≤ pdu1) (hpdu2 : pdu2 = 0 ∨ pageSize ≤ pdu2)
    (hfits : AmsduFits mem copy pdu1 pdu2) :
    HandledInside mem (handleAmsduPdus mem copy pdu1 pdu2) := by
  have hends := handleAmsduPdus_ends mem copy pdu1 pdu2
  unfold handleAmsduPdus at hends ⊢
  split at hends
  · rename_i hsane
    rw [if_pos hsane]
    refine amsduLoop_inside hpdu2 ?_ (hfits hsane) hends
    refine ⟨fun _ => Nat.le_refl _, fun h => (by cases h), ?_⟩
    exact Nat.le_trans hpdu1 (Nat.le_add_right _ _)
  · rename_i hsane
    rw [if_neg hsane]
    exact ⟨_, rfl, rfl, fun f hf => by cases hf⟩

/-! ## A batch -/

/-- A frame of its own PDU. -/
theorem singleFrame_inside {pdu : Nat} (hamsdu : ¬ (topMsg mem pdu).isAmsdu)
    (hfits : (topMsg mem pdu).len + (topMsg mem pdu).pldOff ≤ sdRxBufLen)
    (hhdr : sizeofEthHdr ≤ (topMsg mem pdu).len) : (singleFrame mem pdu).Inside mem := by
  have hlt : (topMsg mem pdu).len < 2 ^ 16 := by
    have hsize : sdRxBufLen = 2048 := rfl
    omega
  have hend : firstEnd mem pdu = pdu + ((topMsg mem pdu).pldOff + (topMsg mem pdu).len) := by
    unfold firstEnd
    dsimp only
    rw [if_neg hamsdu, Nat.min_eq_left (by omega)]
  have hlen : sub16 (topMsg mem pdu).len sizeofEthHdr = (topMsg mem pdu).len - sizeofEthHdr :=
    sub16_eq hhdr hlt
  refine ⟨fun _ => .inr (.inl ⟨Nat.le_refl _, ?_⟩), .inr (.inl ⟨?_, ?_⟩), .inl rfl⟩
  · change pdu + (topMsg mem pdu).pldOff + sizeofEthHdr ≤ firstEnd mem pdu
    omega
  · exact Nat.le_add_right _ _
  · change pdu + (topMsg mem pdu).pldOff + sizeofEthHdr + sub16 (topMsg mem pdu).len sizeofEthHdr ≤
      firstEnd mem pdu
    omega

/-- All turns of a reading stay inside, and take all its PDUs. -/
def ReadingsInside (mem : Mem) (pdus : List Nat) (rs : List Reading × Option Nat) : Prop :=
  (∀ r ∈ rs.1, HandledInside mem r.result) ∧ rs.1.flatMap Reading.pdus = pdus

theorem andThen_inside {r : Reading} {rs : List Reading × Option Nat} {rest : List Nat}
    (hr : HandledInside mem r.result) (hrs : ReadingsInside mem rest rs) :
    ReadingsInside mem (r.pdus ++ rest) (r.andThen rs) := by
  have hkeep := hr
  obtain ⟨result, hresult, hcrashed, -⟩ := hr
  obtain ⟨frames, crashed⟩ := result
  obtain rfl : crashed = false := hcrashed
  unfold Reading.andThen
  rw [hresult]
  refine ⟨fun r' hr' => ?_, ?_⟩
  · rcases List.mem_cons.mp hr' with rfl | hr'
    · exact hkeep
    · exact hrs.1 r' hr'
  · rw [List.flatMap_cons, hrs.2]

theorem readPdus_inside {saved : Option Nat} {pdus : List Nat}
    (hsaved : ∀ s ∈ saved, pageSize ≤ s) (hpdus : ∀ p ∈ pdus, pageSize ≤ p)
    (hfits : PdusFit mem copy saved pdus) :
    ReadingsInside mem pdus (readPdus mem copy saved pdus) := by
  have hnone : ∀ s ∈ (none : Option Nat), pageSize ≤ s := fun s hs => by cases hs
  have hquiet : ∀ frames, (∀ f ∈ frames, EthFrame.Inside mem f) →
      HandledInside mem (some ⟨frames, false⟩) := fun frames h => ⟨_, rfl, rfl, h⟩
  have hempty : HandledInside mem (some ⟨[], false⟩) := hquiet [] fun f hf => by cases hf
  have hsingleton : ∀ r : Reading, ∀ s, HandledInside mem r.result →
      ReadingsInside mem r.pdus ([r], s) := by
    intro r s hr
    refine ⟨fun r' hr' => ?_, ?_⟩
    · rw [List.mem_singleton.mp hr']
      exact hr
    · simp
  induction saved, pdus using readPdus.induct mem with
  | case1 saved =>
    rw [readPdus]
    exact ⟨fun r hr => (by cases hr), rfl⟩
  | case2 saved pdu rest ih =>
    obtain ⟨hpdu, hrest⟩ := List.forall_mem_cons.mp hpdus
    obtain ⟨hfirst, hfits⟩ := hfits
    rw [readPdus]
    exact andThen_inside (handleAmsduPdus_inside (hsaved saved rfl) (.inr hpdu) hfirst)
      (ih hnone hrest hfits)
  | case3 pdu rest msg hsingle hlarge =>
    unfold PdusFit at hfits
    dsimp only at hfits
    rw [if_pos hsingle, if_pos hlarge] at hfits
    subst hfits
    rw [readPdus, if_pos hsingle, if_pos hlarge]
    exact hsingleton _ _ hempty
  | case4 pdu rest msg hsingle hlarge ih =>
    obtain ⟨-, hrest⟩ := List.forall_mem_cons.mp hpdus
    unfold PdusFit at hfits
    dsimp only at hfits
    rw [if_pos hsingle, if_neg hlarge] at hfits
    rw [readPdus.eq_def]
    dsimp only
    rw [if_pos hsingle, if_neg hlarge]
    refine andThen_inside (hquiet _ ?_) (ih hnone hrest hfits.2)
    intro f hf
    split at hf
    · rename_i htype
      rw [List.mem_singleton.mp hf]
      exact singleFrame_inside hsingle (Decidable.not_not.mp hlarge) (hfits.1 htype)
    · cases hf
  | case5 pdu msg hamsdu htwin =>
    rw [readPdus, if_neg hamsdu, if_pos htwin]
    exact hsingleton _ _ hempty
  | case6 pdu msg hamsdu htwin twin rest ih =>
    obtain ⟨hpdu, hmore⟩ := List.forall_mem_cons.mp hpdus
    obtain ⟨hpdu2, hrest⟩ := List.forall_mem_cons.mp hmore
    unfold PdusFit at hfits
    dsimp only at hfits
    rw [if_neg hamsdu, if_pos htwin] at hfits
    rw [readPdus, if_neg hamsdu, if_pos htwin]
    exact andThen_inside (handleAmsduPdus_inside hpdu (.inr hpdu2) hfits.1) (ih hnone hrest hfits.2)
  | case7 pdu rest msg hamsdu htwin ih =>
    obtain ⟨hpdu, hrest⟩ := List.forall_mem_cons.mp hpdus
    unfold PdusFit at hfits
    dsimp only at hfits
    rw [if_neg hamsdu, if_neg htwin] at hfits
    rw [readPdus.eq_def]
    dsimp only
    rw [if_neg hamsdu, if_neg htwin]
    exact andThen_inside (handleAmsduPdus_inside hpdu (.inl rfl) hfits.1) (ih hnone hrest hfits.2)

/-! ## Any batches -/

/-- The buffer of a batch is mapped. -/
def hostStep (h : Host) (b : Batch) : Option Host :=
  if pageSize ≤ b.dataPtr then some (sdioReadCallback h b) else none

theorem savedPdu_callback (h : Host) (b : Batch) : (sdioReadCallback h b).savedPdu = h.savedPdu := by
  unfold sdioReadCallback
  split
  · split
    · rfl
    · rfl
  · rfl

theorem mapped_pdus {b : Batch} (hb : pageSize ≤ b.dataPtr) : ∀ p ∈ b.pdus, pageSize ≤ p := by
  intro p hp
  obtain ⟨i, -, rfl⟩ := List.mem_map.mp hp
  exact Nat.le_trans hb (Nat.le_add_right _ _)

theorem batch_inside {h t : Host} {b : Batch} (hmapped : pageSize ≤ h.savedPdu)
    (hstep : hostStep h b = some t) (hfits : BatchFits h b t) :
    ReadsInside h b t ∧ pageSize ≤ t.savedPdu := by
  unfold hostStep at hstep
  split at hstep
  · rename_i hb
    cases hstep
    have hsaved : ∀ s ∈ (if h.savedPduUsed then some h.savedPdu else none), pageSize ≤ s := by
      intro s hs
      split at hs
      · obtain rfl := Option.some.inj hs
        exact hmapped
      · cases hs
    obtain ⟨hinside, hconsumed⟩ := readPdus_inside hsaved (mapped_pdus hb) hfits
    exact ⟨⟨hinside, hconsumed⟩, by rwa [savedPdu_callback]⟩
  · cases hstep

/-- Whatever batches come, as long as their lengths fit, each is read to its
end, its PDUs once, and every frame lies in the valid bytes. -/
theorem reads_inside_along (h : Host) (hmapped : pageSize ≤ h.savedPdu) (batches : List Batch)
    (hfits : Along hostStep BatchFits h batches) : Along hostStep ReadsInside h batches :=
  along_of_invariant (fun _ _ _ => batch_inside) hmapped hfits

/-- A host that has nothing saved. -/
def freshHost : Host := { savedPdu := 0x10000, saved := fun _ => 0, savedPduUsed := false }

/-- A batch of PDUs whose memory starts with `bytes`. -/
def batchOf (n : Nat) (bytes : List UInt8) : Batch :=
  { mem := fun a => bytes.getD (a - 0x20000) 0
    dataPtr := 0x20000
    numOfPdu := n
    copy := List.replicate 22 0 }

/-- The header of a PDU with a frame of `len` bytes, which start at `off`. -/
def frameHeader (len off : UInt8) : List UInt8 := [0xcd, 0xab, len, 0, off, 0, 0, 0x01, 0x20]

theorem reads_inside_frame :
    Along hostStep ReadsInside freshHost [batchOf 1 (frameHeader 60 12)] := by
  refine reads_inside_along freshHost (by decide) _ ?_
  intro t _
  refine ⟨?_, along_nil⟩
  have hmsg : topMsg (freshHost.seen (batchOf 1 (frameHeader 60 12)).mem) 0x20000 =
      ⟨0xabcd, 60, 12, false, false, 0x2001, 0⟩ := by
    decide +kernel
  change PdusFit _ _ none [0x20000]
  unfold PdusFit
  dsimp only
  rw [hmsg]
  exact ⟨fun _ => by decide, trivial⟩

/-- A frame of 13 bytes is handed on with a length of 65535, and a PDU whose
payload does not fit it discards the one behind it. -/
theorem reads_outside :
    ¬ Along hostStep ReadsInside freshHost [batchOf 1 (frameHeader 13 12)] ∧
      ¬ Along hostStep ReadsInside freshHost
        [batchOf 2 ([0xcd, 0xab, 0, 8, 12, 0, 0, 0x01, 0x20])] := by
  constructor
  · intro h
    obtain ⟨⟨hinside, -⟩, -⟩ := h _ rfl
    have hreadings : (freshHost.readings (batchOf 1 (frameHeader 13 12))).1 =
        [⟨[0x20000], some ⟨[singleFrame (freshHost.seen (batchOf 1 (frameHeader 13 12)).mem)
          0x20000], false⟩⟩] := by
      decide +kernel
    rw [hreadings] at hinside
    obtain ⟨r, hr, -, hframes⟩ := hinside _ List.mem_cons_self
    obtain rfl := Option.some.inj hr
    have hp1 := (hframes _ List.mem_cons_self).p1
    exact absurd hp1 (by decide +kernel)
  · intro h
    obtain ⟨⟨-, hconsumed⟩, -⟩ := h _ rfl
    revert hconsumed
    decide +kernel

end BouffaloSdk.SdioMsgHandlers
