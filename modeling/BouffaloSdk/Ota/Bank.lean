import BouffaloSdk.Ota.BflbOta

/-!
# What an update touches

`bflb_ota_update` erases the sectors around its chunk and programs the chunk.
Counted from the handle's base these stay inside the sectors that the chunk
meets; in flash they are rounded out once more when the base is not aligned.
-/

namespace BouffaloSdk

namespace Ota
open Kit Kit.Word BouffaloSdk.Partition Mtd

variable {flash flash' : Flash} {lo hi : Nat}

/-- Where the sectors of a chunk begin and end, as flash addresses. -/
def chunkLo (handle : BflbMtdHandle) (offset : Nat) : Nat := handle.offset + sectorFloor offset

def chunkHi (handle : BflbMtdHandle) (offset len : Nat) : Nat :=
  handle.offset + sectorCeil (offset + len)

theorem mtdWriteCopy2ram_changedWithin (flash : Flash) (addr : Nat) (src : List UInt8)
    (hlo : lo ≤ addr) (hhi : addr + src.length ≤ hi) (small : hi ≤ 2 ^ 32) :
    flash.ChangedWithin (mtdWriteCopy2ram flash addr src) lo hi := by
  fun_induction mtdWriteCopy2ram flash addr src with
  | case1 flash addr src => exact .refl flash lo hi
  | case2 flash addr src hne piece ih =>
    have hpiece : piece.length = min 64 src.length := List.length_take
    have hfirst := bflbFlashWrite_changedWithin flash hlo
      (show addr + piece.length ≤ hi by omega)
    by_cases hlast : src.length ≤ 64
    · have hnil : src.drop 64 = [] := List.drop_eq_nil_of_le hlast
      rw [hnil, mtdWriteCopy2ram, if_pos List.length_nil]
      exact hfirst
    · have haddr : add32 addr piece.length = addr + piece.length := add32_eq (by omega)
      rw [haddr] at ih ⊢
      exact hfirst.trans (ih (by omega) (by rw [List.length_drop]; omega))

theorem bflbMtdWrite_changedWithin (flash : Flash) (handle : BflbMtdHandle) {addr : Nat}
    {data : List UInt8} (xip : Bool) (small : handle.offset + addr + data.length ≤ 2 ^ 32)
    (hdata : 0 < data.length) (hlo : lo ≤ handle.offset + addr)
    (hhi : handle.offset + addr + data.length ≤ hi) :
    flash.ChangedWithin (bflbMtdWrite flash handle addr data xip).1 lo hi := by
  have haddr : add32 handle.offset addr = handle.offset + addr := add32_eq (by omega)
  unfold bflbMtdWrite
  rw [haddr]
  cases xip with
  | true =>
    exact (mtdWriteCopy2ram_changedWithin flash _ data (Nat.le_refl _) (Nat.le_refl _) small).mono
      hlo hhi
  | false => exact bflbFlashWrite_changedWithin flash hlo hhi

theorem otaEraseSector_changedWithin {handle : BflbMtdHandle} {state state' : Flash × List Nat}
    {index : Nat} (h : otaEraseSector handle state index = .ok state')
    (hlo : lo ≤ handle.offset + index * 4096) (hhi : handle.offset + index * 4096 + 4096 ≤ hi)
    (small : hi ≤ 2 ^ 32) :
    state.1.ChangedWithin state'.1 (sectorFloor lo) (sectorCeil hi) := by
  unfold otaEraseSector at h
  split at h
  · exact absurd h (by simp)
  · split at h
    · obtain ⟨⟩ := Except.ok.inj h
      have haddr : add32 handle.offset (index * 4096) = handle.offset + index * 4096 :=
        add32_eq (by omega)
      simp only [bflbMtdErase, haddr]
      exact bflbFlashErase_changedWithin state.1 (by decide) hlo hhi
    · obtain ⟨⟩ := Except.ok.inj h
      exact .refl _ _ _

theorem foldlM_otaEraseSector_changedWithin {handle : BflbMtdHandle} {indices : List Nat}
    {state state' : Flash × List Nat}
    (h : indices.foldlM (otaEraseSector handle) state = .ok state')
    (hindices : ∀ index ∈ indices,
      lo ≤ handle.offset + index * 4096 ∧ handle.offset + index * 4096 + 4096 ≤ hi)
    (small : hi ≤ 2 ^ 32) :
    state.1.ChangedWithin state'.1 (sectorFloor lo) (sectorCeil hi) := by
  induction indices generalizing state with
  | nil =>
    obtain ⟨⟩ := Except.ok.inj h
    exact .refl _ _ _
  | cons index indices ih =>
    rw [List.foldlM_cons] at h
    cases hfirst : otaEraseSector handle state index with
    | error halt =>
      rw [hfirst] at h
      exact absurd h (by simp [bind, Except.bind])
    | ok mid =>
      rw [hfirst] at h
      obtain ⟨hlo, hhi⟩ := hindices index List.mem_cons_self
      exact (otaEraseSector_changedWithin hfirst hlo hhi small).trans
        (ih h fun i hi' => hindices i (List.mem_cons_of_mem _ hi'))

/-- An accepted chunk changes nothing outside its sectors. -/
theorem bflbOtaErase_changedWithin {parm : BflbOtaParm} {flash' : Flash} {sectorErased : List Nat}
    {offset len : Nat} (h : bflbOtaErase flash parm offset len = .ok (flash', sectorErased))
    (hlen : 0 < len) (hfit : offset + len < 2 ^ 32)
    (small : chunkHi parm.mtdHandle offset len ≤ 2 ^ 32) :
    flash.ChangedWithin flash' (sectorFloor (chunkLo parm.mtdHandle offset))
      (sectorCeil (chunkHi parm.mtdHandle offset len)) := by
  unfold bflbOtaErase at h
  simp only [add32_eq hfit, sub32_eq (show 1 ≤ offset + len by omega) hfit] at h
  refine foldlM_otaEraseSector_changedWithin h (fun index hindex => ?_) small
  obtain ⟨i, hi', rfl⟩ := List.mem_map.mp hindex
  rw [List.mem_range] at hi'
  unfold chunkLo chunkHi sectorFloor sectorCeil
  omega

/-- The data of a call is accepted by the open session. -/
def Accepted (parm : BflbOtaParm) (filesize offset : Nat) (buf : List UInt8) : Prop :=
  ¬ (filesize > parm.fileSize ∨ add32 offset buf.length > parm.fileSize ∨ buf.length = 0)

instance (parm : BflbOtaParm) (filesize offset : Nat) (buf : List UInt8) :
    Decidable (Accepted parm filesize offset buf) :=
  inferInstanceAs (Decidable (¬ _))

/-- What a call of `bflb_ota_update` does to the device: nothing, or the
changes of one accepted chunk. -/
theorem bflbOtaUpdate_cases {sys sys' : Sys} {filesize offset : Nat} {buf : Option (List UInt8)}
    {xip : Bool} {ret : Int} (h : bflbOtaUpdate sys filesize offset buf xip = .ok (sys', ret)) :
    sys' = sys ∨ ∃ parm data sectorErased flash₁,
      sys.otaParm = some parm ∧ buf = some data ∧ Accepted parm filesize offset data ∧
      bflbOtaErase sys.flash parm offset data.length = .ok (flash₁, sectorErased) ∧
      sys' = { sys with
        flash := (bflbMtdWrite flash₁ parm.mtdHandle offset data xip).1
        otaParm := some { parm with sectorErased := sectorErased } } := by
  unfold bflbOtaUpdate at h
  cases hparm : sys.otaParm with
  | none =>
    simp only [hparm] at h
    obtain ⟨rfl, -⟩ := Prod.mk.inj (Except.ok.inj h)
    exact .inl rfl
  | some parm =>
    cases buf with
    | none =>
      simp only [hparm] at h
      obtain ⟨rfl, -⟩ := Prod.mk.inj (Except.ok.inj h)
      exact .inl rfl
    | some data =>
      simp only [hparm] at h
      split at h
      · obtain ⟨rfl, -⟩ := Prod.mk.inj (Except.ok.inj h)
        exact .inl rfl
      · rename_i haccepted
        cases herase : bflbOtaErase sys.flash parm offset data.length with
        | error halt =>
          simp only [herase] at h
          exact absurd h (by simp)
        | ok erased =>
          obtain ⟨flash₁, sectorErased⟩ := erased
          simp only [herase] at h
          refine .inr ⟨parm, data, sectorErased, flash₁, rfl, rfl, haccepted, herase, ?_⟩
          split at h
          · exact (Prod.mk.inj (Except.ok.inj h)).1.symm
          · exact (Prod.mk.inj (Except.ok.inj h)).1.symm

/-- A chunk whose sectors end below `2 ^ 32`. -/
structure ChunkFits (handle : BflbMtdHandle) (offset len : Nat) : Prop where
  fits : offset + len < 2 ^ 32
  small : chunkHi handle offset len ≤ 2 ^ 32

instance (handle : BflbMtdHandle) (offset len : Nat) : Decidable (ChunkFits handle offset len) :=
  decidable_of_iff (offset + len < 2 ^ 32 ∧ chunkHi handle offset len ≤ 2 ^ 32)
    ⟨fun h => ⟨h.1, h.2⟩, fun h => ⟨h.1, h.2⟩⟩

theorem bflbOtaUpdate_changedWithin {parm : BflbOtaParm} {data : List UInt8} {flash flash₁ : Flash}
    {sectorErased : List Nat} {filesize offset : Nat} (xip : Bool)
    (accepted : Accepted parm filesize offset data)
    (erase : bflbOtaErase flash parm offset data.length = .ok (flash₁, sectorErased))
    (fits : ChunkFits parm.mtdHandle offset data.length) :
    flash.ChangedWithin (bflbMtdWrite flash₁ parm.mtdHandle offset data xip).1
      (sectorFloor (chunkLo parm.mtdHandle offset))
      (sectorCeil (chunkHi parm.mtdHandle offset data.length)) := by
  have hdata : 0 < data.length := by
    unfold Accepted at accepted
    omega
  have hsmall := fits.small
  refine (bflbOtaErase_changedWithin erase hdata fits.fits hsmall).trans ?_
  apply bflbMtdWrite_changedWithin flash₁ parm.mtdHandle xip ?_ hdata
  · unfold chunkLo sectorFloor
    omega
  · unfold chunkHi sectorCeil
    omega
  · unfold chunkHi sectorCeil at hsmall
    omega

end Ota

end BouffaloSdk
