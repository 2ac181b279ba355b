import BouffaloSdk.HostRouter.Tty
import BouffaloSdk.Kit.Runs

/-!
# Credit on the serial line

Which runs conserve the credit, so that the device has room for every byte and
the host is never stuck with an empty buffer behind it.
-/

namespace BouffaloSdk.HostRouter.Tty

open Kit Kit.Runs

variable {w t : World} {e : Event} {skb frame : List UInt8} {rest : List (List UInt8)}
  {bsr : Bsr} {bsrs : List Bsr} {events : List Event}

/-- The credit of the host once the reports in flight have arrived. -/
def World.credit (w : World) : Int := Grant.settle w.ttyCredit (w.bsrs.map Bsr.grant)

def World.inFlight (w : World) : Nat := (w.frames.map List.length).sum

/-- Credit, bytes in flight and bytes in the stream buffer. -/
def World.total (w : World) : Int := w.credit + w.inFlight + w.rcvSb.length

structure Conserved (w : World) (_ : Event) (t : World) : Prop where
  total : t.total = sdiowifiTtyRcvBufLen
  /-- The device had room for what it received. -/
  room : t.dropped = w.dropped
  /-- The host has credit when nothing is on its way and the buffer is empty. -/
  alive : t.frames = [] → t.bsrs = [] → t.rcvSb = [] → 0 < t.ttyCredit

/-- No initial report is in flight. -/
def World.Settled (w : World) : Prop := ∀ bsr ∈ w.bsrs, bsr.initial = false

/-- Data gets to the device unless an initial report is about to replace the
credit, reports of a read get to the host, and a hello is answered only while
no data is in flight. -/
structure CreditKept (w : World) (e : Event) (_ : World) : Prop where
  send : ∀ sent, e = .sendTty true sent → w.ttyCredit ≠ 0 → (sent = true ↔ w.Settled)
  read : ∀ nbytes, e = .read nbytes false → nbytes = 0 ∨ w.rcvSb = []
  hello : e = .hello true → w.frames = []

structure Inv (w : World) : Prop where
  total : w.total = sdiowifiTtyRcvBufLen
  credit_nonneg : 0 ≤ w.ttyCredit
  queued : ∀ skb ∈ w.ttyMsgList, skb ≠ []
  sent : ∀ frame ∈ w.frames, frame ≠ []

/-! ## Bounds -/

theorem World.credit_nonneg (h : 0 ≤ w.ttyCredit) : 0 ≤ w.credit := Grant.settle_nonneg h

theorem Inv.rcvSb_le (h : Inv w) : w.rcvSb.length ≤ sdiowifiTtyRcvBufLen := by
  have htotal := h.total
  have hcredit := World.credit_nonneg h.credit_nonneg
  simp only [World.total] at htotal
  omega

theorem Inv.spaces (h : Inv w) :
    (spacesAvailable w : Int) = sdiowifiTtyRcvBufLen - w.rcvSb.length := by
  have hle := h.rcvSb_le
  unfold spacesAvailable
  omega

theorem toNat_ofNat_of_le {n : Nat} (h : n ≤ sdiowifiTtyRcvBufLen) :
    (UInt16.ofNat n).toNat = n := by
  have hsmall : n < 2 ^ 16 := by
    have hlen : sdiowifiTtyRcvBufLen = 4096 := rfl
    omega
  exact UInt16.toNat_ofNat_of_lt' hsmall

theorem txLen_pos (hcredit : 0 ≤ w.ttyCredit) (hne : w.ttyCredit ≠ 0) (hskb : skb ≠ []) :
    0 < txLen w.ttyCredit skb := by
  have hlen := List.length_pos_of_ne_nil hskb
  unfold txLen ttyFrameMax
  split <;> omega

theorem txLen_le (hcredit : 0 ≤ w.ttyCredit) : (txLen w.ttyCredit skb : Int) ≤ w.ttyCredit := by
  unfold txLen
  split <;> omega

theorem txLen_le_length : txLen w.ttyCredit skb ≤ skb.length := by
  unfold txLen
  split <;> omega

theorem skbs_ne_nil {fuel : Nat} {data : List UInt8} : ∀ skb ∈ skbs fuel data, skb ≠ [] := by
  induction fuel generalizing data with
  | zero =>
    intro skb hmem
    cases hmem
  | succ fuel ih =>
    intro skb hmem
    unfold skbs at hmem
    split at hmem
    · cases hmem
    case isFalse hdata =>
      cases List.mem_cons.mp hmem with
      | inl heq =>
        subst heq
        simp [ttyFrameMax, hdata]
      | inr hrest => exact ih skb hrest

/-! ## What each step does to the total -/

theorem inFlight_cons (h : w.frames = frame :: rest) :
    w.inFlight = frame.length + (rest.map List.length).sum := by
  unfold World.inFlight
  rw [h, List.map_cons, List.sum_cons]

theorem settle_spent (n : Int) :
    Grant.settle (w.ttyCredit - n) (w.bsrs.map Bsr.grant) =
      w.credit - open Classical in if w.Settled then n else 0 := by
  by_cases hsettled : w.Settled
  · rw [if_pos hsettled]
    refine Grant.settle_sub fun grant hgrant => ?_
    obtain ⟨bsr, hbsr, rfl⟩ := List.mem_map.mp hgrant
    exact hsettled bsr hbsr
  · rw [if_neg hsettled, Int.sub_zero]
    unfold World.Settled at hsettled
    simp only [not_forall, Bool.not_eq_false] at hsettled
    obtain ⟨bsr, hbsr, hinitial⟩ := hsettled
    exact Grant.settle_forgets ⟨bsr.grant, List.mem_map_of_mem hbsr, hinitial⟩

theorem total_sendTty (hcredit : w.ttyCredit ≠ 0) (sent : Bool) :
    (sendTty w skb rest true sent).total =
      w.total + (if sent then (txLen w.ttyCredit skb : Int) else 0) -
        open Classical in if w.Settled then (txLen w.ttyCredit skb : Int) else 0 := by
  have hspent := settle_spent (w := w) (txLen w.ttyCredit skb)
  have hlength : (skb.take (txLen w.ttyCredit skb)).length = txLen w.ttyCredit skb :=
    List.length_take_of_le txLen_le_length
  simp only [sendTty, not_true_eq_false, if_false, if_neg hcredit, World.total, World.credit,
    World.inFlight, hspent]
  cases sent with
  | true =>
    simp only [if_true, List.map_append, List.sum_append, List.map_cons, List.map_nil,
      List.sum_cons, List.sum_nil, hlength]
    omega
  | false =>
    simp only [Bool.false_eq_true, if_false]
    omega

theorem Inv.total_read (h : Inv w) (nbytes : Nat) (sent : Bool) :
    (ttyRead w nbytes sent).total =
      w.total - if sent then (0 : Int) else (w.rcvSb.take nbytes).length := by
  have hsplit : (w.rcvSb.take nbytes).length + (w.rcvSb.drop nbytes).length =
      w.rcvSb.length := by
    rw [← List.length_append, List.take_append_drop]
  have hsmall := toNat_ofNat_of_le (n := (w.rcvSb.take nbytes).length)
    (by have hle := h.rcvSb_le; omega)
  by_cases hgot : 0 < (w.rcvSb.take nbytes).length
  · cases sent with
    | false =>
      simp only [ttyRead, if_pos hgot, sendBsr, World.total, World.credit, World.inFlight,
        Bool.false_eq_true, if_false]
      omega
    | true =>
      simp only [ttyRead, if_pos hgot, sendBsr, World.total, World.credit, World.inFlight,
        Bool.false_eq_true, if_false, if_true, List.map_append, List.map_cons, List.map_nil,
        Grant.settle_append, Bsr.grant, Grant.apply, hsmall]
      omega
  · have hnone : (w.rcvSb.take nbytes).length = 0 := by omega
    have hquiet : ttyRead w nbytes sent = { w with rcvSb := w.rcvSb.drop nbytes } := by
      simp only [ttyRead, if_neg hgot]
    rw [hquiet, hnone]
    simp only [World.total, World.credit, World.inFlight, Int.natCast_zero, ite_self]
    omega

theorem Inv.total_hello (h : Inv w) :
    (sendBsr w true 0 true).total = sdiowifiTtyRcvBufLen + w.inFlight := by
  have hspaces := h.spaces
  have hsmall := toNat_ofNat_of_le (n := spacesAvailable w) (Nat.sub_le ..)
  simp only [sendBsr, World.total, World.credit, World.inFlight, if_true, List.map_append,
    List.map_cons, List.map_nil, Grant.settle_append, Bsr.grant, Grant.apply, hsmall]
  omega

theorem total_handleBsr (hbsrs : w.bsrs = bsr :: bsrs) :
    (handleBsr w bsr bsrs).total = w.total := by
  simp only [handleBsr, World.total, World.credit, World.inFlight, hbsrs, List.map_cons,
    Grant.settle_cons, Grant.apply, Bsr.grant]

/-- The device has room for the next frame. -/
theorem Inv.frame_fits (h : Inv w) (hframes : w.frames = frame :: rest) :
    frame.length ≤ spacesAvailable w := by
  have htotal := h.total
  have hcredit := World.credit_nonneg h.credit_nonneg
  have hinFlight := inFlight_cons hframes
  have hspaces := h.spaces
  simp only [World.total] at htotal
  omega

theorem Inv.total_rx (h : Inv w) (hframes : w.frames = frame :: rest) :
    (handleTtyRx w frame rest).total = w.total ∧
      (handleTtyRx w frame rest).dropped = w.dropped := by
  have hfits := h.frame_fits hframes
  have hinFlight := inFlight_cons hframes
  constructor
  · simp only [handleTtyRx, World.total, World.credit, World.inFlight, List.take_of_length_le hfits,
      List.length_append] at hinFlight ⊢
    omega
  · simp only [handleTtyRx, List.drop_of_length_le hfits, List.append_nil]

/-! ## The invariant -/

/-- The part of the invariant that every step keeps. -/
structure Sane (w : World) : Prop where
  credit_nonneg : 0 ≤ w.ttyCredit
  queued : ∀ skb ∈ w.ttyMsgList, skb ≠ []
  sent : ∀ frame ∈ w.frames, frame ≠ []

theorem Inv.sane (h : Inv w) : Sane w := ⟨h.credit_nonneg, h.queued, h.sent⟩

theorem Sane.inv (h : Sane w) (htotal : w.total = sdiowifiTtyRcvBufLen) : Inv w :=
  ⟨htotal, h.credit_nonneg, h.queued, h.sent⟩

theorem Sane.sendBsr (h : Sane w) (initial : Bool) (incr : Nat) (sent : Bool) :
    Sane (sendBsr w initial incr sent) := by
  cases sent with
  | true => exact ⟨h.credit_nonneg, h.queued, h.sent⟩
  | false => exact h

theorem Sane.sendTty (h : Sane w) (hlist : w.ttyMsgList = skb :: rest) (cardOk sent : Bool) :
    Sane (sendTty w skb rest cardOk sent) := by
  have hskb : skb ≠ [] := h.queued skb (hlist ▸ List.mem_cons_self)
  have hrest : ∀ other ∈ rest, other ≠ [] := fun other hmem =>
    h.queued other (hlist ▸ List.mem_cons_of_mem _ hmem)
  unfold Tty.sendTty
  by_cases hcard : ¬ cardOk = true
  · rw [if_pos hcard]
    exact ⟨h.credit_nonneg, hrest, h.sent⟩
  by_cases hcredit : w.ttyCredit = 0
  · rw [if_neg hcard, if_pos hcredit]
    exact h
  rw [if_neg hcard, if_neg hcredit]
  have hpos := txLen_pos h.credit_nonneg hcredit hskb
  constructor
  case credit_nonneg =>
    have hle : (txLen w.ttyCredit skb : Int) ≤ w.ttyCredit := txLen_le h.credit_nonneg
    change 0 ≤ w.ttyCredit - txLen w.ttyCredit skb
    omega
  case queued =>
    intro other hmem
    dsimp only at hmem
    split at hmem
    case isTrue => exact hrest other hmem
    case isFalse hleft =>
      cases List.mem_cons.mp hmem with
      | inl heq => exact heq ▸ hleft
      | inr hmem => exact hrest other hmem
  case sent =>
    intro frame hmem
    dsimp only at hmem
    split at hmem
    case isFalse => exact h.sent frame hmem
    case isTrue =>
      cases List.mem_append.mp hmem with
      | inl hmem => exact h.sent frame hmem
      | inr hnew =>
        rw [List.mem_singleton.mp hnew]
        intro hempty
        have hlength := congrArg List.length hempty
        rw [List.length_take_of_le txLen_le_length] at hlength
        exact absurd hlength (Nat.ne_of_gt hpos)

theorem Sane.step (h : Sane w) (hstep : Tty.step w e = some t) : Sane t := by
  cases e with
  | write data allocs =>
    cases hstep
    refine ⟨h.credit_nonneg, fun skb hmem => ?_, h.sent⟩
    cases List.mem_append.mp hmem with
    | inl hold => exact h.queued skb hold
    | inr hnew => exact skbs_ne_nil skb (List.mem_of_mem_take hnew)
  | sendTty cardOk sent =>
    cases hlist : w.ttyMsgList with
    | nil => simp [Tty.step, hlist] at hstep
    | cons skb rest =>
      simp only [Tty.step, hlist] at hstep
      cases hstep
      exact h.sendTty hlist cardOk sent
  | rx =>
    cases hframes : w.frames with
    | nil => simp [Tty.step, hframes] at hstep
    | cons frame rest =>
      simp only [Tty.step, hframes] at hstep
      cases hstep
      exact ⟨h.credit_nonneg, h.queued, fun other hmem =>
        h.sent other (hframes ▸ List.mem_cons_of_mem _ hmem)⟩
  | read nbytes sent =>
    have hread : Sane { w with rcvSb := w.rcvSb.drop nbytes } :=
      ⟨h.credit_nonneg, h.queued, h.sent⟩
    cases hstep
    unfold ttyRead
    by_cases hgot : 0 < (w.rcvSb.take nbytes).length
    · simp only [if_pos hgot]
      exact hread.sendBsr false _ sent
    · simp only [if_neg hgot]
      exact hread
  | hello sent =>
    cases hstep
    exact h.sendBsr true 0 sent
  | bsr =>
    cases hbsrs : w.bsrs with
    | nil => simp [Tty.step, hbsrs] at hstep
    | cons bsr bsrs =>
      simp only [Tty.step, hbsrs] at hstep
      cases hstep
      refine ⟨?_, h.queued, h.sent⟩
      have hcredit := h.credit_nonneg
      unfold handleBsr
      dsimp only
      split <;> omega

theorem inFlight_eq_zero (h : Sane w) (hzero : w.inFlight = 0) : w.frames = [] := by
  cases hframes : w.frames with
  | nil => rfl
  | cons frame rest =>
    have hpos := List.length_pos_of_ne_nil (h.sent frame (hframes ▸ List.mem_cons_self))
    have hsum := inFlight_cons hframes
    omega

theorem Inv.room (h : Inv w) (hstep : step w e = some t) : t.dropped = w.dropped := by
  cases e with
  | write => cases hstep; rfl
  | sendTty cardOk sent =>
    cases hlist : w.ttyMsgList with
    | nil => simp [step, hlist] at hstep
    | cons skb rest =>
      simp only [step, hlist] at hstep
      cases hstep
      unfold sendTty
      split
      · rfl
      · split <;> rfl
  | rx =>
    cases hframes : w.frames with
    | nil => simp [step, hframes] at hstep
    | cons frame rest =>
      simp only [step, hframes] at hstep
      cases hstep
      exact (h.total_rx hframes).2
  | read nbytes sent =>
    cases hstep
    unfold ttyRead
    by_cases hgot : 0 < (w.rcvSb.take nbytes).length
    · simp only [if_pos hgot]
      cases sent <;> rfl
    · simp only [if_neg hgot]
  | hello sent => cases hstep; cases sent <;> rfl
  | bsr =>
    cases hbsrs : w.bsrs with
    | nil => simp [step, hbsrs] at hstep
    | cons bsr bsrs =>
      simp only [step, hbsrs] at hstep
      cases hstep
      rfl

/-! ## Runs -/

/-- A step of another kind that leaves the total as it is. -/
theorem Inv.other_iff {u : World} (h : Inv w) (hsame : t.total = w.total)
    (hsend : ∀ sent, e ≠ .sendTty true sent) (hread : ∀ nbytes, e ≠ .read nbytes false)
    (hhello : e ≠ .hello true) :
    t.total = sdiowifiTtyRcvBufLen ↔ CreditKept w e u := by
  constructor
  · intro _
    exact ⟨fun sent he => absurd he (hsend sent), fun nbytes he => absurd he (hread nbytes),
      fun he => absurd he hhello⟩
  · intro _
    exact hsame.trans h.total

theorem Inv.sendTty_iff (h : Inv w) (hlist : w.ttyMsgList = skb :: rest) (sent : Bool) :
    (sendTty w skb rest true sent).total = sdiowifiTtyRcvBufLen ↔
      CreditKept w (.sendTty true sent) t := by
  have htotal := h.total
  have hcases : CreditKept w (.sendTty true sent) t ↔
      (w.ttyCredit ≠ 0 → (sent = true ↔ w.Settled)) := by
    constructor
    · exact fun hkept => hkept.send sent rfl
    · intro hsend
      refine ⟨fun _ he => ?_, fun _ he => (by cases he), fun he => (by cases he)⟩
      cases he
      exact hsend
  rw [hcases]
  by_cases hcredit : w.ttyCredit = 0
  · have hsame : (sendTty w skb rest true sent).total = w.total := by
      simp only [sendTty, not_true_eq_false, if_false, if_pos hcredit]
    rw [hsame]
    exact ⟨fun _ hne => absurd hcredit hne, fun _ => htotal⟩
  · have hpos := txLen_pos h.credit_nonneg hcredit
      (h.queued skb (hlist ▸ List.mem_cons_self))
    rw [total_sendTty hcredit]
    by_cases hsettled : w.Settled <;> cases sent <;>
      simp only [hsettled, hcredit, if_true, if_false, Bool.false_eq_true, ne_eq,
        not_false_eq_true, true_implies, iff_true, iff_false, not_true_eq_false] <;> omega

theorem Inv.read_iff (h : Inv w) (nbytes : Nat) (sent : Bool) :
    (ttyRead w nbytes sent).total = sdiowifiTtyRcvBufLen ↔
      CreditKept w (.read nbytes sent) t := by
  have htotal := h.total
  cases sent with
  | true =>
    have hsame : (ttyRead w nbytes true).total = w.total := by
      rw [h.total_read]
      simp only [if_true, Int.sub_zero]
    apply h.other_iff hsame
    · exact fun _ => Event.noConfusion
    · intro _ he
      cases he
    · exact Event.noConfusion
  | false =>
    rw [h.total_read]
    have hlength : (w.rcvSb.take nbytes).length = min nbytes w.rcvSb.length := List.length_take
    simp only [Bool.false_eq_true, if_false]
    constructor
    · intro hkept
      refine ⟨fun _ he => (by cases he), fun n he => ?_, fun he => (by cases he)⟩
      cases he
      by_cases hn : nbytes = 0
      · exact .inl hn
      · right
        apply List.eq_nil_of_length_eq_zero
        omega
    · intro hkept
      cases hkept.read nbytes rfl with
      | inl hn =>
        subst hn
        rw [List.take_zero]
        simpa using htotal
      | inr hempty =>
        rw [hempty, List.take_nil]
        simpa using htotal

theorem Inv.hello_iff (h : Inv w) (sent : Bool) :
    (sendBsr w true 0 sent).total = sdiowifiTtyRcvBufLen ↔ CreditKept w (.hello sent) t := by
  cases sent with
  | false =>
    apply h.other_iff (t := sendBsr w true 0 false) rfl
    · exact fun _ => Event.noConfusion
    · exact fun _ => Event.noConfusion
    · intro he
      cases he
  | true =>
    rw [h.total_hello]
    constructor
    · intro htotal
      refine ⟨fun _ he => (by cases he), fun _ he => (by cases he), fun _ => ?_⟩
      exact inFlight_eq_zero h.sane (by omega)
    · intro hkept
      have hzero : w.inFlight = 0 := by
        unfold World.inFlight
        rw [hkept.hello rfl]
        rfl
      omega

theorem Inv.total_iff (h : Inv w) (hstep : step w e = some t) :
    t.total = sdiowifiTtyRcvBufLen ↔ CreditKept w e t := by
  cases e with
  | write data allocs =>
    cases hstep
    exact h.other_iff rfl (fun _ => Event.noConfusion) (fun _ => Event.noConfusion)
      Event.noConfusion
  | sendTty cardOk sent =>
    cases hlist : w.ttyMsgList with
    | nil => simp [step, hlist] at hstep
    | cons skb rest =>
      simp only [step, hlist] at hstep
      cases hstep
      cases cardOk with
      | true => exact h.sendTty_iff hlist sent
      | false =>
        apply h.other_iff (t := sendTty w skb rest false sent) rfl
        · intro _ he
          cases he
        · exact fun _ => Event.noConfusion
        · exact Event.noConfusion
  | rx =>
    cases hframes : w.frames with
    | nil => simp [step, hframes] at hstep
    | cons frame rest =>
      simp only [step, hframes] at hstep
      cases hstep
      exact h.other_iff (h.total_rx hframes).1 (fun _ => Event.noConfusion)
        (fun _ => Event.noConfusion) Event.noConfusion
  | read nbytes sent =>
    cases hstep
    exact h.read_iff nbytes sent
  | hello sent =>
    cases hstep
    exact h.hello_iff sent
  | bsr =>
    cases hbsrs : w.bsrs with
    | nil => simp [step, hbsrs] at hstep
    | cons bsr bsrs =>
      simp only [step, hbsrs] at hstep
      cases hstep
      exact h.other_iff (total_handleBsr hbsrs) (fun _ => Event.noConfusion)
        (fun _ => Event.noConfusion) Event.noConfusion

theorem Inv.alive (h : Inv w) (hframes : w.frames = []) (hbsrs : w.bsrs = [])
    (hempty : w.rcvSb = []) : 0 < w.ttyCredit := by
  have htotal := h.total
  have hlen : sdiowifiTtyRcvBufLen = 4096 := rfl
  simp only [World.total, World.credit, World.inFlight, hframes, hbsrs, hempty, List.map_nil,
    Grant.settle_nil, List.sum_nil, List.length_nil] at htotal
  omega

theorem Inv.conserved_iff (h : Inv w) (hstep : step w e = some t) :
    Conserved w e t ↔ CreditKept w e t := by
  have htotal := h.total_iff hstep
  constructor
  · exact fun hgood => htotal.mp hgood.total
  · intro hkept
    have hinv := (h.sane.step hstep).inv (htotal.mpr hkept)
    exact ⟨hinv.total, h.room hstep, hinv.alive⟩

theorem inv_linkUp : Inv linkUp where
  total := by decide
  credit_nonneg := by decide
  queued _ hmem := by cases hmem
  sent _ hmem := by cases hmem

end BouffaloSdk.HostRouter.Tty
