import BouffaloSdk.EthPhy.LwipNetifEmac
import BouffaloSdk.Kit.Custody
import BouffaloSdk.Kit.Runs
import BouffaloSdk.Lhal.EmacRings

/-!
# Who owns which buffer

While the link is up every buffer has one owner, as long as nobody held one when the last
link-up put all of them out again.
-/

namespace BouffaloSdk.LwipEmac
open Kit Kit.Runs

variable {cfg : LwipEmacCfg} {s t : LwipEmac} {e : Event} {n : Nat}

/-- The send buffers, owner by owner. -/
def txOwned (s : LwipEmac) : List Nat := s.txPoolQueue ++ s.txRing ++ s.outputs.map Prod.fst

/-- The receive buffers, owner by owner. -/
def rxOwned (s : LwipEmac) : List Nat := s.rxProcessQueue ++ s.rxRing ++ s.input.toList

/-- While the link is up each buffer has one owner, and a PHY that is up again brings the
link up again. -/
structure BuffersKept (cfg : LwipEmacCfg) (s : LwipEmac) (e : Event) (t : LwipEmac) : Prop where
  owned : t.update = .idle → t.netifLinkUp = true →
    (∀ buff, buff < cfg.txBuffCnt → t.txOwned.count buff = 1) ∧
      ∀ buff, buff < cfg.rxBuffCnt → t.rxOwned.count buff = 1
  comesBack : ∀ speed, e = .update ephyLinkStaUp speed → s.netifLinkUp = false →
    t.update = .txRefill 0 ephyLinkStaUp speed

/-- The step that puts buffers out again finds them all in: no send and no frame is under
way and the driver's rings are empty. A link that goes down reads a speed that is not the
number for an up link. The rings hold all buffers. -/
structure Clear (cfg : LwipEmacCfg) (s : LwipEmac) (e : Event) (_ : LwipEmac) : Prop where
  txFits : cfg.txBuffCnt ≤ cfg.txBdNumMax
  rxFits : cfg.rxBuffCnt ≤ cfg.rxBdNumMax
  txIn : ∀ speed, e = .update ephyLinkStaUp speed → s.linkSta ≠ ephyLinkStaUp →
    s.txRing = [] ∧ s.outputs = []
  rxIn : ∀ sta speed, e = .updateNext → s.update = .txRefill cfg.txBuffCnt sta speed →
    s.rxRing = [] ∧ s.input = none
  speed : ∀ sta speed, e = .update sta speed → s.linkSta = ephyLinkStaUp →
    sta ≠ ephyLinkStaUp ∨ s.speedMode ≠ speed → speed ≠ ephyLinkStaUp

/-! ## The buffers put out so far -/

def txIssued (cfg : LwipEmacCfg) (s : LwipEmac) : Option Nat :=
  match s.update with
  | .idle => if s.netifLinkUp then some cfg.txBuffCnt else none
  | .txRefill i _ _ => some i
  | .rxRefill _ _ _ => some cfg.txBuffCnt

def rxIssued (cfg : LwipEmacCfg) (s : LwipEmac) : Option Nat :=
  match s.update with
  | .idle => if s.netifLinkUp then some cfg.rxBuffCnt else none
  | .txRefill _ _ _ => none
  | .rxRefill i _ _ => some i

structure Inv (cfg : LwipEmacCfg) (s : LwipEmac) : Prop where
  tx : ∀ n, s.txIssued cfg = some n → n ≤ cfg.txBuffCnt ∧ Custody n s.txOwned
  rx : ∀ n, s.rxIssued cfg = some n → n ≤ cfg.rxBuffCnt ∧ Custody n s.rxOwned
  up : s.update = .idle → (s.netifLinkUp = true ↔ s.linkSta = ephyLinkStaUp)
  tx_sta : ∀ i sta speed, s.update = .txRefill i sta speed →
    sta = ephyLinkStaUp ∧ s.netifLinkUp = false
  rx_sta : ∀ i sta speed, s.update = .rxRefill i sta speed →
    sta = ephyLinkStaUp ∧ s.netifLinkUp = false

theorem inv_init (cfg : LwipEmacCfg) : Inv cfg init where
  tx n hn := by cases hn
  rx n hn := by cases hn
  up _ := by decide
  tx_sta i sta speed h := by cases h
  rx_sta i sta speed h := by cases h

/-- A step of one of the others, which hands buffers on. -/
theorem Inv.handOn (h : Inv cfg s) (hupdate : t.update = s.update)
    (hup : t.netifLinkUp = s.netifLinkUp) (hsta : t.linkSta = s.linkSta)
    (htx : ∀ n, n ≤ cfg.txBuffCnt → Custody n s.txOwned → Custody n t.txOwned)
    (hrx : ∀ n, n ≤ cfg.rxBuffCnt → Custody n s.rxOwned → Custody n t.rxOwned) : Inv cfg t where
  tx n hn := by
    have hsame : t.txIssued cfg = s.txIssued cfg := by
      unfold txIssued
      rw [hupdate, hup]
    obtain ⟨hle, hheld⟩ := h.tx n (hsame ▸ hn)
    exact ⟨hle, htx n hle hheld⟩
  rx n hn := by
    have hsame : t.rxIssued cfg = s.rxIssued cfg := by
      unfold rxIssued
      rw [hupdate, hup]
    obtain ⟨hle, hheld⟩ := h.rx n (hsame ▸ hn)
    exact ⟨hle, hrx n hle hheld⟩
  up hidle := by
    rw [hup, hsta]
    exact h.up (hupdate ▸ hidle)
  tx_sta i sta speed heq := by
    rw [hup]
    exact h.tx_sta i sta speed (hupdate ▸ heq)
  rx_sta i sta speed heq := by
    rw [hup]
    exact h.rx_sta i sta speed (hupdate ▸ heq)

/-- The driver's rings are the queues of the model. -/
theorem queueTxPush_eq {sizes : EmacSizes} {em : Emac} (h : Emac.Inv sizes em)
    (desc : BflbEmacTransDesc) :
    (Emac.bflbEmacQueueTxPush sizes em desc).1.window .tx =
      queueSend (sizes.bdNumMax .tx) (em.window .tx) desc.buffAddr :=
  Emac.window_push h .tx desc

theorem queueRxPush_eq {sizes : EmacSizes} {em : Emac} (h : Emac.Inv sizes em)
    (desc : BflbEmacTransDesc) :
    (Emac.bflbEmacQueueRxPush sizes em desc).1.window .rx =
      queueSend (sizes.bdNumMax .rx) (em.window .rx) desc.buffAddr :=
  Emac.window_push h .rx desc

theorem queueSend_eq {cap : Nat} {queue : List Nat} {buff : Nat} (h : queue.length < cap) :
    queueSend cap queue buff = queue ++ [buff] := if_pos h

theorem inv_output (h : Inv cfg s) (totLen : Nat) (lens : List Nat) :
    Inv cfg (emacLowLevelOutput cfg s totLen lens) := by
  unfold emacLowLevelOutput
  split
  · exact h
  · split
    · exact h
    · next buff pool hpool =>
      refine h.handOn rfl rfl rfl (fun n _ hheld => hheld.move ?_) fun n _ hheld => hheld
      unfold txOwned
      rw [hpool, List.map_append]
      refine List.perm_iff_count.mpr fun k => ?_
      simp only [List.count_append, List.count_cons, List.map_cons, List.map_nil, List.count_nil]
      omega

theorem txOwned_length (h : Custody n s.txOwned) :
    s.txPoolQueue.length + s.txRing.length + s.outputs.length = n := by
  rw [← h.length]
  unfold txOwned
  rw [List.length_append, List.length_append, List.length_map]

theorem rxOwned_length (h : Custody n s.rxOwned) :
    s.rxProcessQueue.length + s.rxRing.length + s.input.toList.length = n := by
  rw [← h.length]
  unfold rxOwned
  rw [List.length_append, List.length_append]

theorem inv_outputDone (h : Inv cfg s) (hfits : cfg.txBuffCnt ≤ cfg.txBdNumMax)
    {held : Nat × List Nat} (hin : held ∈ s.outputs) : Inv cfg (outputDone cfg s held) := by
  have houtputs : (s.outputs.map Prod.fst).Perm (held.1 :: (s.outputs.erase held).map Prod.fst) :=
    (List.perm_cons_erase hin).map Prod.fst
  have hone := List.length_pos_of_mem hin
  unfold outputDone
  dsimp only
  split
  · refine h.handOn rfl rfl rfl (fun n hn hheld => hheld.move ?_) fun n _ hheld => hheld
    have hlen := txOwned_length hheld
    have hring : queueSend cfg.txBdNumMax s.txRing held.1 = s.txRing ++ [held.1] :=
      queueSend_eq (by omega)
    unfold txOwned txPush
    dsimp only
    rw [hring]
    refine List.perm_iff_count.mpr fun k => ?_
    have hcount := houtputs.count_eq k
    simp only [List.count_append, List.count_cons, List.count_nil] at hcount ⊢
    omega
  · refine h.handOn rfl rfl rfl (fun n hn hheld => hheld.move ?_) fun n _ hheld => hheld
    have hlen := txOwned_length hheld
    have hpool : queueSend cfg.txBuffCnt s.txPoolQueue held.1 = s.txPoolQueue ++ [held.1] :=
      queueSend_eq (by omega)
    unfold txOwned
    dsimp only
    rw [hpool]
    refine List.perm_iff_count.mpr fun k => ?_
    have hcount := houtputs.count_eq k
    simp only [List.count_append, List.count_cons, List.count_nil] at hcount ⊢
    omega

/-- The driver gives a send buffer back to the pool. -/
theorem inv_txFrame (h : Inv cfg s) {buff : Nat} {ring : List Nat} (hring : s.txRing = buff :: ring) :
    Inv cfg { s with
      txRing := ring, txPoolQueue := queueSend cfg.txBuffCnt s.txPoolQueue buff } := by
  refine h.handOn rfl rfl rfl (fun n hn hheld => hheld.move ?_) fun n _ hheld => hheld
  have hlen := txOwned_length hheld
  rw [hring, List.length_cons] at hlen
  have hpool : queueSend cfg.txBuffCnt s.txPoolQueue buff = s.txPoolQueue ++ [buff] :=
    queueSend_eq (by omega)
  unfold txOwned
  dsimp only
  rw [hpool, hring]
  refine List.perm_iff_count.mpr fun k => ?_
  simp only [List.count_append, List.count_cons, List.count_nil]
  omega

/-- A frame goes to the task. -/
theorem inv_rxFrame (h : Inv cfg s) {buff : Nat} {ring : List Nat} (hring : s.rxRing = buff :: ring) :
    Inv cfg { s with
      rxRing := ring, rxProcessQueue := queueSend cfg.rxBuffCnt s.rxProcessQueue buff } := by
  refine h.handOn rfl rfl rfl (fun n _ hheld => hheld) fun n hn hheld => hheld.move ?_
  have hlen := rxOwned_length hheld
  rw [hring, List.length_cons] at hlen
  have hqueue : queueSend cfg.rxBuffCnt s.rxProcessQueue buff = s.rxProcessQueue ++ [buff] :=
    queueSend_eq (by omega)
  unfold rxOwned
  dsimp only
  rw [hqueue, hring]
  refine List.perm_iff_count.mpr fun k => ?_
  simp only [List.count_append, List.count_cons, List.count_nil]
  omega

/-- A frame is dropped, and its buffer goes back to the driver. -/
theorem inv_rxDrop (h : Inv cfg s) (hfits : cfg.rxBuffCnt ≤ cfg.rxBdNumMax) {buff : Nat}
    {ring : List Nat} (hring : s.rxRing = buff :: ring) :
    Inv cfg (rxPush cfg { s with rxRing := ring } buff) := by
  refine h.handOn rfl rfl rfl (fun n _ hheld => hheld) fun n hn hheld => hheld.move ?_
  have hlen := rxOwned_length hheld
  rw [hring, List.length_cons] at hlen
  have hback : queueSend cfg.rxBdNumMax ring buff = ring ++ [buff] := queueSend_eq (by omega)
  unfold rxOwned rxPush
  dsimp only
  rw [hback, hring]
  refine List.perm_iff_count.mpr fun k => ?_
  simp only [List.count_append, List.count_cons, List.count_nil]
  omega

theorem inv_irq (h : Inv cfg s) (hfits : cfg.rxBuffCnt ≤ cfg.rxBdNumMax) {event : EmacIrqEvent}
    (hstep : irq cfg s event = some t) : Inv cfg t := by
  unfold irq at hstep
  split at hstep
  · cases hstep
    exact h
  · split at hstep
    · cases hstep
    · next buff ring hring =>
      cases hstep
      exact inv_rxDrop h hfits hring
  · split at hstep
    · cases hstep
    · next buff ring hring =>
      cases hstep
      exact inv_rxDrop h hfits hring
  · split at hstep
    · cases hstep
    · next buff ring hring =>
      cases hstep
      exact inv_rxFrame h hring
  · split at hstep
    · cases hstep
    · next buff ring hring =>
      cases hstep
      exact inv_txFrame h hring
  · split at hstep
    · cases hstep
    · next buff ring hring =>
      cases hstep
      exact inv_txFrame h hring

theorem inv_inputTake (h : Inv cfg s) (hstep : s.inputTake = some t) : Inv cfg t := by
  unfold inputTake at hstep
  split at hstep
  · next buff queue hinput hqueue =>
    cases hstep
    refine h.handOn rfl rfl rfl (fun n _ hheld => hheld) fun n _ hheld => hheld.move ?_
    unfold rxOwned
    rw [hinput, hqueue]
    refine List.perm_iff_count.mpr fun k => ?_
    simp only [List.count_append, List.count_cons, List.count_nil, Option.toList]
    omega
  · cases hstep

theorem inv_inputDone (h : Inv cfg s) (hfits : cfg.rxBuffCnt ≤ cfg.rxBdNumMax)
    (hstep : s.inputDone cfg = some t) : Inv cfg t := by
  unfold inputDone at hstep
  cases hinput : s.input with
  | none =>
    rw [hinput] at hstep
    cases hstep
  | some buff =>
    rw [hinput] at hstep
    cases hstep
    refine h.handOn rfl rfl rfl (fun n _ hheld => hheld) fun n hn hheld => hheld.move ?_
    have hlen := rxOwned_length hheld
    rw [hinput, Option.toList_some, List.length_singleton] at hlen
    have hback : queueSend cfg.rxBdNumMax s.rxRing buff = s.rxRing ++ [buff] :=
      queueSend_eq (by omega)
    unfold rxOwned rxPush
    dsimp only
    rw [hback, hinput]
    refine List.perm_iff_count.mpr fun k => ?_
    simp only [List.count_append, List.count_cons, List.count_nil, Option.toList]
    omega

/-! ## The link -/

/-- The link goes up, or down, or the readings change nothing. -/
theorem inv_update (h : Inv cfg s) {sta speed : Int} (hidle : s.update = .idle)
    (hclear : Clear cfg s (.update sta speed) t) :
    Inv cfg (s.ethLinkStateUpdate sta speed) := by
  unfold ethLinkStateUpdate
  split
  · next hup =>
    obtain ⟨rfl, hwas⟩ := hup
    obtain ⟨hring, houtputs⟩ := hclear.txIn speed rfl hwas
    have hdown : s.netifLinkUp = false := by
      cases hlink : s.netifLinkUp with
      | false => rfl
      | true => exact absurd ((h.up hidle).mp hlink) hwas
    refine ⟨fun n hn => ?_, fun n hn => ?_, fun hno => ?_, fun i sta speed heq => ?_,
      fun i sta speed heq => ?_⟩
    · cases hn
      refine ⟨Nat.zero_le _, ?_⟩
      unfold txOwned
      rw [hring, houtputs]
      exact Custody.none
    · cases hn
    · cases hno
    · cases heq
      exact ⟨rfl, hdown⟩
    · cases heq
  · next hnot =>
    split
    · next hgoes =>
      have hspeed : speed ≠ ephyLinkStaUp := by
        rcases hgoes with ⟨hsta, hlink⟩ | ⟨hsta, hspeed⟩
        · exact hclear.speed sta speed rfl hlink (.inl hsta)
        · have hlink : s.linkSta = ephyLinkStaUp := by
            by_contra hlink
            exact hnot ⟨hsta, hlink⟩
          exact hclear.speed sta speed rfl hlink (.inr hspeed)
      refine ⟨fun n hn => ?_, fun n hn => ?_, fun _ => ?_, fun i sta speed heq => ?_,
        fun i sta speed heq => ?_⟩
      · simp [txIssued, hidle] at hn
      · simp [rxIssued, hidle] at hn
      · exact iff_of_false Bool.false_ne_true hspeed
      · cases hidle.symm.trans heq
      · cases hidle.symm.trans heq
    · exact h

theorem inv_updateNext (h : Inv cfg s) (hclear : Clear cfg s .updateNext t)
    (hstep : s.updateNext cfg = some t) : Inv cfg t := by
  unfold updateNext at hstep
  split at hstep
  · cases hstep
  · next i sta speed hupdate =>
    obtain ⟨hsta, hdown⟩ := h.tx_sta i sta speed hupdate
    have hissued : s.txIssued cfg = some i := by
      unfold txIssued
      rw [hupdate]
    obtain ⟨hle, hheld⟩ := h.tx i hissued
    split at hstep
    · next hlt =>
      split at hstep
      · cases hstep
        refine ⟨fun n hn => ?_, fun n hn => ?_, fun hno => ?_, fun j sta' speed' heq => ?_,
          fun j sta' speed' heq => ?_⟩
        · cases hn
          refine ⟨hlt, hheld.issue ?_⟩
          unfold txOwned
          refine List.perm_iff_count.mpr fun k => ?_
          simp only [List.count_append, List.count_cons, List.count_nil]
          omega
        · cases hn
        · cases hno
        · cases heq
          exact ⟨hsta, hdown⟩
        · cases heq
      · cases hstep
    · next hge =>
      cases hstep
      have hi : i = cfg.txBuffCnt := by omega
      subst hi
      obtain ⟨hring, hinput⟩ := hclear.rxIn sta speed rfl hupdate
      refine ⟨fun n hn => ?_, fun n hn => ?_, fun hno => ?_, fun j sta' speed' heq => ?_,
        fun j sta' speed' heq => ?_⟩
      · cases hn
        exact ⟨Nat.le_refl _, hheld⟩
      · cases hn
        refine ⟨Nat.zero_le _, ?_⟩
        unfold rxOwned
        rw [hring, hinput]
        exact Custody.none
      · cases hno
      · cases heq
      · cases heq
        exact ⟨hsta, hdown⟩
  · next i sta speed hupdate =>
    obtain ⟨hsta, hdown⟩ := h.rx_sta i sta speed hupdate
    have htxIssued : s.txIssued cfg = some cfg.txBuffCnt := by
      unfold txIssued
      rw [hupdate]
    have hrxIssued : s.rxIssued cfg = some i := by
      unfold rxIssued
      rw [hupdate]
    obtain ⟨-, htx⟩ := h.tx _ htxIssued
    obtain ⟨hle, hheld⟩ := h.rx i hrxIssued
    split at hstep
    · next hlt =>
      cases hstep
      refine ⟨fun n hn => ?_, fun n hn => ?_, fun hno => ?_, fun j sta' speed' heq => ?_,
        fun j sta' speed' heq => ?_⟩
      · cases hn
        exact ⟨Nat.le_refl _, htx⟩
      · cases hn
        have hlen := rxOwned_length hheld
        have hfits := hclear.rxFits
        have hring : queueSend cfg.rxBdNumMax s.rxRing i = s.rxRing ++ [i] :=
          queueSend_eq (by omega)
        refine ⟨hlt, hheld.issue ?_⟩
        unfold rxOwned rxPush
        dsimp only
        rw [hring]
        refine List.perm_iff_count.mpr fun k => ?_
        simp only [List.count_append, List.count_cons, List.count_nil]
        omega
      · cases hno
      · cases heq
      · cases heq
        exact ⟨hsta, hdown⟩
    · next hge =>
      cases hstep
      have hi : i = cfg.rxBuffCnt := by omega
      subst hi
      refine ⟨fun n hn => ?_, fun n hn => ?_, fun _ => ?_, fun j sta' speed' heq => ?_,
        fun j sta' speed' heq => ?_⟩
      · cases hn
        exact ⟨Nat.le_refl _, htx⟩
      · cases hn
        exact ⟨Nat.le_refl _, hheld⟩
      · exact iff_of_true rfl hsta
      · cases heq
      · cases heq

theorem Inv.step (h : Inv cfg s) (hstep : s.step cfg e = some t) (hclear : Clear cfg s e t) :
    Inv cfg t := by
  cases e with
  | output totLen lens =>
    cases hstep
    exact inv_output h totLen lens
  | outputDone held =>
    simp only [LwipEmac.step] at hstep
    split at hstep
    · next hin =>
      cases hstep
      exact inv_outputDone h hclear.txFits hin
    · cases hstep
  | irq event => exact inv_irq h hclear.rxFits hstep
  | inputTake => exact inv_inputTake h hstep
  | inputDone => exact inv_inputDone h hclear.rxFits hstep
  | update sta speed =>
    simp only [LwipEmac.step] at hstep
    split at hstep
    · next hidle =>
      cases hstep
      exact inv_update h hidle hclear
    · cases hstep
  | updateNext => exact inv_updateNext h hclear hstep

theorem buffersKept_step (h : Inv cfg s) (hstep : s.step cfg e = some t)
    (hclear : Clear cfg s e t) : BuffersKept cfg s e t := by
  have hnext := h.step hstep hclear
  constructor
  case owned =>
    intro hidle hup
    have htx : t.txIssued cfg = some cfg.txBuffCnt := by
      unfold txIssued
      rw [hidle, hup]
      rfl
    have hrx : t.rxIssued cfg = some cfg.rxBuffCnt := by
      unfold rxIssued
      rw [hidle, hup]
      rfl
    exact ⟨fun buff hbuff => (hnext.tx _ htx).2.count hbuff,
      fun buff hbuff => (hnext.rx _ hrx).2.count hbuff⟩
  case comesBack =>
    rintro speed rfl hdown
    simp only [LwipEmac.step] at hstep
    split at hstep
    · next hidle =>
      cases hstep
      have hlink : s.linkSta ≠ ephyLinkStaUp := by
        intro hlink
        have hup := (h.up hidle).mpr hlink
        rw [hdown] at hup
        cases hup
      unfold ethLinkStateUpdate
      rw [if_pos ⟨rfl, hlink⟩]
    · cases hstep

end BouffaloSdk.LwipEmac
