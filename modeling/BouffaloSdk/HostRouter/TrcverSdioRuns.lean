import BouffaloSdk.HostRouter.TrcverSdio
import BouffaloSdk.Kit.Custody
import BouffaloSdk.Kit.Runs

/-!
# Used descriptors, their bits and their number

The three accounts of the descriptors agree and every callback is called once, in every run in
which no descriptor expires and no buffer is attached to a descriptor that a reset has overtaken.
An expired descriptor keeps its bit, and its port is lost until the next reset.
-/

namespace BouffaloSdk.TrcverSdio
open Kit Kit.Runs

/-- The callback of the descriptor has been called, and the descriptor is being released. -/
def Worker.hasCalled (w : Worker) (i : Port) : Bool :=
  match w with
  | .uploadRetire _ j | .expiryRetire _ j => i = j
  | .resetLoop n => i.val < n
  | .resetDescs => true
  | _ => false

/-- `bl_sdu_reinit` has reset some of the accounts and not yet all of them. -/
def Worker.resetting : Worker → Bool
  | .resetLoop _ | .resetDescs | .resetAttached => true
  | _ => false

/-- The buffer is in a descriptor that is not being released. -/
def State.Attached (s : State) (b : Nat) : Prop :=
  ∃ i, (s.descs i).used = true ∧ (s.descs i).cb = some b ∧ s.worker.hasCalled i = false

def usedPorts (descs : Port → SdioTxDesc) : List Port :=
  (List.finRange 16).filter fun i => (descs i).used

/-- A call that waits for the port goes on to attach its buffer there. -/
def State.Usable (limit : UInt64) (s : State) : Prop :=
  ∀ tick, ∃ t, run (step limit) s (List.replicate 4 (.send tick)) = some t ∧
    t.accepted = s.accepted + 1 ∧ (t.descs s.currUpldPort).used = true

structure Good (limit : UInt64) (_ : State) (_ : Event) (t : State) : Prop where
  bits : t.worker.resetting = false → ∀ i : Port, t.rdBitmapOld.getLsbD i = (t.descs i).used
  count : t.worker.resetting = false → t.attached = (usedPorts t.descs).length
  attached : ∀ b, b < t.accepted → t.Attached b → b ∉ t.called
  retired : ∀ b, b < t.accepted → ¬ t.Attached b → t.called.count b = 1
  usable : t.worker.resetting = false → t.sender = .waiting →
    (t.descs t.currUpldPort).used = false → t.Usable limit
  /-- No null pointer is about to be called. -/
  callable : t.worker ≠ .idle → (workerStep limit t).isSome

/-- `check_tx_timeout` finds a descriptor in time, and `sdu_send_data` attaches its buffer at the
port that comes next and not while the accounts are being reset. -/
structure Safe (limit : UInt64) (s : State) (e : Event) (_ : State) : Prop where
  inTime : e = .work → ∀ now (i : Port), s.worker = .expiryLoop now i → (s.descs i).used = true →
    ¬ limit < now - (s.descs i).tickAttached
  inStep : ∀ tick desc, e = .send tick → s.sender = .entering desc →
    desc = s.currUpldPort ∧ s.worker.resetting = false

/-- The buffer whose callback is still to be called. -/
def State.holds (s : State) (i : Port) : Option Nat :=
  if (s.descs i).used ∧ ¬ s.worker.hasCalled i then (s.descs i).cb else none

def State.held (s : State) : List Nat := (List.finRange 16).filterMap s.holds

/-- The descriptor that the worker is releasing is used. -/
def Worker.Fits (descs : Port → SdioTxDesc) : Worker → Prop
  | .uploadCb _ i | .uploadRetire _ i => (descs i).used = true
  | .expiryCb .. | .expiryRetire .. => False
  | .resetAttached => ∀ i, (descs i).used = false
  | _ => True

structure Inv (s : State) : Prop where
  bits : s.worker.resetting = false → ∀ i : Port, s.rdBitmapOld.getLsbD i = (s.descs i).used
  count : s.worker.resetting = false → s.attached = (usedPorts s.descs).length
  cleared : s.worker.resetting = true → s.rdBitmapOld = 0
  custody : Custody s.accepted (s.called ++ s.held)
  hasCb : ∀ i, (s.descs i).used = true → ∃ b, (s.descs i).cb = some b
  entering : ∀ desc, s.sender = .entering desc → (s.descs desc).used = false
  fits : s.worker.Fits s.descs

variable {limit : UInt64} {s t : State} {e : Event} {i j : Port} {w : Worker} {b : Nat}

/-! ## Bits and counts -/

theorem getLsbD_mask (i j : Port) : (1#16 <<< i.val).getLsbD j.val = decide (j = i) := by
  have hj := j.isLt
  rw [BitVec.getLsbD_shiftLeft, BitVec.getLsbD_one, Bool.eq_iff_iff]
  simp only [hj, decide_true, Bool.true_and, Bool.and_eq_true, Bool.not_eq_true', decide_eq_true_eq,
    decide_eq_false_iff_not, Fin.ext_iff]
  omega

theorem getLsbD_or_mask (v : BitVec 16) (i j : Port) :
    (v ||| 1#16 <<< i.val).getLsbD j = (v.getLsbD j || decide (j = i)) := by
  rw [BitVec.getLsbD_or, getLsbD_mask]

theorem getLsbD_and_not_mask (v : BitVec 16) (i j : Port) :
    (v &&& ~~~(1#16 <<< i.val)).getLsbD j = (v.getLsbD j && !decide (j = i)) := by
  rw [BitVec.getLsbD_and, BitVec.getLsbD_not, getLsbD_mask]
  simp

theorem length_usedPorts (descs : Port → SdioTxDesc) : (usedPorts descs).length ≤ 16 := by
  have h := List.length_filter_le (fun i => (descs i).used) (List.finRange 16)
  rwa [List.length_finRange] at h

theorem usedPorts_congr {descs descs' : Port → SdioTxDesc}
    (h : ∀ i, (descs' i).used = (descs i).used) : usedPorts descs' = usedPorts descs :=
  List.filter_congr fun i _ => h i

/-- A descriptor that becomes used makes one more. -/
theorem length_usedPorts_update (descs : Port → SdioTxDesc) {d : SdioTxDesc}
    (hold : (descs i).used = false) (hnew : d.used = true) :
    (usedPorts (Function.update descs i d)).length = (usedPorts descs).length + 1 := by
  have hfilter : ∀ descs' : Port → SdioTxDesc, usedPorts descs' =
      (List.finRange 16).filterMap fun j => if (descs' j).used then some j else none := by
    intro descs'
    rw [usedPorts, ← List.filterMap_eq_filter]
    refine List.filterMap_congr fun j _ => ?_
    simp [Option.guard]
  obtain ⟨others, hothers⟩ := exists_perm_filterMap (List.finRange 16) (List.nodup_finRange 16)
    (fun j => if (descs j).used then some j else none) (List.mem_finRange i)
  have hbefore := (hothers _ fun _ _ => rfl).length_eq
  have hafter := (hothers (fun j => if (Function.update descs i d j).used then some j else none)
    fun j hj => by rw [Function.update_of_ne hj]).length_eq
  rw [hfilter, hfilter, hafter, hbefore]
  simp [hold, hnew, Nat.add_comm]

/-! ## What a step may leave as it is -/

/-- Nothing changes but where the two threads are. -/
theorem Inv.frame (h : Inv s) (hused : ∀ i, (t.descs i).used = (s.descs i).used)
    (hcb : ∀ i, (t.descs i).cb = (s.descs i).cb) (hbits : t.rdBitmapOld = s.rdBitmapOld)
    (hcount : t.attached = s.attached) (haccepted : t.accepted = s.accepted)
    (hcalled : t.called = s.called) (hreset : t.worker.resetting = s.worker.resetting)
    (hhas : ∀ i, (s.descs i).used = true → t.worker.hasCalled i = s.worker.hasCalled i)
    (hentering : ∀ desc, t.sender = .entering desc → (s.descs desc).used = false)
    (hfits : t.worker.Fits t.descs) : Inv t where
  bits hno i := by
    rw [hbits, hused]
    exact h.bits (hreset ▸ hno) i
  count hno := by
    rw [hcount, usedPorts_congr hused]
    exact h.count (hreset ▸ hno)
  cleared hyes := by
    rw [hbits]
    exact h.cleared (hreset ▸ hyes)
  custody := by
    have hholds : t.holds = s.holds := by
      funext i
      unfold State.holds
      rw [hused, hcb]
      cases hu : (s.descs i).used with
      | false => rfl
      | true => rw [hhas i hu]
    unfold State.held
    rw [hholds, hcalled, haccepted]
    exact h.custody
  hasCb i hi := by
    rw [hcb]
    exact h.hasCb i (hused i ▸ hi)
  entering desc hdesc := by
    rw [hused]
    exact hentering desc hdesc
  fits := hfits

theorem fits_of_update (hfits : w.Fits s.descs) (hnot : w ≠ .resetAttached) {d : SdioTxDesc}
    (hd : (s.descs i).used = true → d.used = true) : w.Fits (Function.update s.descs i d) := by
  have hupdate : ∀ j, (s.descs j).used = true → (Function.update s.descs i d j).used = true := by
    intro j hj
    by_cases heq : j = i
    · subst heq
      rw [Function.update_self]
      exact hd hj
    · rw [Function.update_of_ne heq]
      exact hj
  cases w with
  | uploadCb diff j => exact hupdate j hfits
  | uploadRetire diff j => exact hupdate j hfits
  | resetAttached => exact absurd rfl hnot
  | expiryCb now j => exact hfits
  | expiryRetire now j => exact hfits
  | _ => trivial

/-- Outside a reset, a descriptor whose callback has been called is still used. -/
theorem Worker.Fits.used_of_hasCalled (h : w.Fits s.descs) (hreset : w.resetting = false)
    (hcalled : w.hasCalled i = true) : (s.descs i).used = true := by
  cases w with
  | uploadRetire diff j =>
    have hij : i = j := of_decide_eq_true hcalled
    rw [hij]
    exact h
  | expiryRetire now j => exact h.elim
  | resetLoop n => cases hreset
  | resetDescs => cases hreset
  | _ => cases hcalled

/-! ## The sender -/

@[simp] theorem attach_descs_self (s : State) (desc : Port) (tick : UInt64) :
    (s.attach desc tick).descs desc = ⟨true, some s.accepted, none, 1, tick⟩ :=
  Function.update_self ..

theorem attach_descs_of_ne (s : State) {desc : Port} (tick : UInt64) (h : i ≠ desc) :
    (s.attach desc tick).descs i = s.descs i := Function.update_of_ne h ..

theorem Inv.attach (h : Inv s) {desc : Port} (tick : UInt64) (hsender : s.sender = .entering desc)
    (hport : desc = s.currUpldPort) (hreset : s.worker.resetting = false) :
    Inv (s.attach desc tick) := by
  have hunused := h.entering desc hsender
  have hcount := h.count hreset
  have hlength := length_usedPorts s.descs
  have hfresh : s.worker.hasCalled desc = false := by
    by_contra hcalled
    have hused := h.fits.used_of_hasCalled hreset (Bool.not_eq_false _ ▸ hcalled)
    rw [hunused] at hused
    cases hused
  constructor
  · intro _ i
    show (s.rdBitmapOld ||| 1#16 <<< s.currUpldPort.val).getLsbD i = _
    rw [getLsbD_or_mask, h.bits hreset, ← hport]
    by_cases hi : i = desc
    · subst hi
      simp
    · rw [attach_descs_of_ne s tick hi]
      simp [hi]
  · intro _
    show (s.attached + 1) % 2 ^ 32 = (usedPorts (Function.update s.descs desc _)).length
    rw [length_usedPorts_update s.descs hunused rfl, hcount]
    omega
  · intro hyes
    exact absurd hyes (by rw [show (s.attach desc tick).worker = s.worker from rfl, hreset]; decide)
  · obtain ⟨others, hothers⟩ := exists_perm_filterMap (List.finRange 16) (List.nodup_finRange 16)
      s.holds (List.mem_finRange desc)
    have hbefore := hothers s.holds fun _ _ => rfl
    have hafter := hothers (s.attach desc tick).holds fun j hj => by
      unfold State.holds
      rw [attach_descs_of_ne s tick hj]
      rfl
    have hnone : s.holds desc = none := by simp [State.holds, hunused]
    have hsome : (s.attach desc tick).holds desc = some s.accepted := by
      have hworker : (s.attach desc tick).worker = s.worker := rfl
      simp [State.holds, hworker, hfresh]
    rw [hnone] at hbefore
    rw [hsome] at hafter
    refine h.custody.issue ?_
    show (s.called ++ (s.attach desc tick).held).Perm (s.accepted :: (s.called ++ s.held))
    refine (hafter.append_left s.called).trans ?_
    refine List.perm_middle.trans ?_
    exact ((hbefore.symm.append_left s.called)).cons s.accepted
  · intro i hi
    by_cases heq : i = desc
    · subst heq
      exact ⟨s.accepted, by simp⟩
    · rw [attach_descs_of_ne s tick heq] at hi ⊢
      exact h.hasCb i hi
  · intro desc' hdesc'
    cases hdesc'
  · show s.worker.Fits (Function.update s.descs desc _)
    refine fits_of_update h.fits ?_ fun _ => rfl
    intro hw
    rw [hw] at hreset
    cases hreset

theorem inv_of_senderStep (h : Inv s) {tick : UInt64} (hstep : senderStep s tick = some t)
    (hsafe : ∀ desc, s.sender = .entering desc →
      desc = s.currUpldPort ∧ s.worker.resetting = false) : Inv t := by
  have hmove : ∀ next : Sender, (∀ desc, next = .entering desc → (s.descs desc).used = false) →
      Inv { s with sender := next } := fun next hnext =>
    h.frame (fun _ => rfl) (fun _ => rfl) rfl rfl rfl rfl rfl (fun _ _ => rfl) hnext h.fits
  unfold senderStep at hstep
  cases hsender : s.sender with
  | idle => rw [hsender] at hstep; cases hstep
  | waiting =>
    simp only [hsender] at hstep
    split at hstep
    · cases hstep
      exact h
    · cases hstep
      exact hmove .passed fun _ hdesc => nomatch hdesc
  | passed =>
    simp only [hsender] at hstep
    cases hstep
    exact hmove _ fun _ hdesc => nomatch hdesc
  | chosen desc =>
    simp only [hsender] at hstep
    split at hstep
    · cases hstep
      exact hmove .idle fun _ hdesc => nomatch hdesc
    · rename_i hused
      cases hstep
      refine hmove _ fun desc' hdesc' => ?_
      cases hdesc'
      exact Bool.eq_false_iff.mpr hused
  | entering desc =>
    simp only [hsender] at hstep
    cases hstep
    obtain ⟨hport, hreset⟩ := hsafe desc hsender
    exact h.attach tick hsender hport hreset

/-! ## The worker -/

/-- A callback is called. -/
theorem Inv.callCb (h : Inv s) (hstep : s.callCb i w = some t) (hused : (s.descs i).used = true)
    (hnot : s.worker.hasCalled i = false) (hnow : w.hasCalled i = true)
    (hother : ∀ j, j ≠ i → w.hasCalled j = s.worker.hasCalled j)
    (hreset : w.resetting = s.worker.resetting) (hfits : w.Fits s.descs) : Inv t := by
  obtain ⟨b, hb, ht⟩ := Option.map_eq_some_iff.mp hstep
  subst ht
  constructor
  · intro hno
    exact h.bits (hreset ▸ hno)
  · intro hno
    exact h.count (hreset ▸ hno)
  · intro hyes
    exact h.cleared (hreset ▸ hyes)
  · obtain ⟨others, hothers⟩ := exists_perm_filterMap (List.finRange 16) (List.nodup_finRange 16)
      s.holds (List.mem_finRange i)
    have hbefore := hothers s.holds fun _ _ => rfl
    have hafter := hothers (State.holds { s with called := s.called ++ [b], worker := w })
      fun j hj => by
        unfold State.holds
        dsimp only
        rw [hother j hj]
    have hsome : s.holds i = some b := by simp [State.holds, hused, hnot, hb]
    have hnone : State.holds { s with called := s.called ++ [b], worker := w } i = none := by
      simp [State.holds, hnow]
    rw [hsome] at hbefore
    rw [hnone] at hafter
    refine h.custody.move ?_
    show ((s.called ++ [b]) ++ State.held _).Perm (s.called ++ s.held)
    rw [List.append_assoc]
    refine List.Perm.append_left s.called ?_
    exact (hafter.append_left [b]).trans hbefore.symm
  · exact h.hasCb
  · exact h.entering
  · exact hfits

theorem hasCalled_uploadRetire (diff : BitVec 16) (i j : Port) :
    (Worker.uploadRetire diff i).hasCalled j = decide (j = i) := rfl

theorem hasCalled_uploadLoop (diff : BitVec 16) (n : Nat) (j : Port) :
    (Worker.uploadLoop diff n).hasCalled j = false := rfl

theorem hasCalled_resetBitmap (j : Port) : Worker.resetBitmap.hasCalled j = false := rfl

theorem hasCalled_resetLoop (n : Nat) (j : Port) :
    (Worker.resetLoop n).hasCalled j = decide (j.val < n) := rfl

theorem hasCalled_resetDescs (j : Port) : Worker.resetDescs.hasCalled j = true := rfl

/-- The critical section that ends an upload. -/
theorem Inv.retire (h : Inv s) {diff : BitVec 16} (hw : s.worker = .uploadRetire diff i) :
    Inv { s.setUnused i with
      rdBitmapOld := s.rdBitmapOld &&& ~~~(1#16 <<< i.val)
      worker := .uploadLoop diff (i + 1) } := by
  have hused : (s.descs i).used = true := by
    have hfits := h.fits
    rw [hw] at hfits
    exact hfits
  have hreset : s.worker.resetting = false := by rw [hw]; rfl
  have hdescs : ∀ j, j ≠ i → (s.setUnused i).descs j = s.descs j := fun j hj =>
    Function.update_of_ne hj ..
  have hself : (s.setUnused i).descs i = { s.descs i with used := false } :=
    Function.update_self ..
  constructor
  · intro _ j
    show (s.rdBitmapOld &&& ~~~(1#16 <<< i.val)).getLsbD j = ((s.setUnused i).descs j).used
    rw [getLsbD_and_not_mask, h.bits hreset]
    by_cases hj : j = i
    · rw [hj, hself]
      simp
    · rw [hdescs j hj]
      simp [hj]
  · intro _
    show (s.attached + (2 ^ 32 - 1)) % 2 ^ 32 = (usedPorts (s.setUnused i).descs).length
    have hback : Function.update (s.setUnused i).descs i (s.descs i) = s.descs := by
      funext j
      by_cases hj : j = i
      · rw [hj, Function.update_self]
      · rw [Function.update_of_ne hj, hdescs j hj]
    have hlength := length_usedPorts_update (s.setUnused i).descs (i := i) (by rw [hself]) hused
    rw [hback] at hlength
    have hle := length_usedPorts s.descs
    rw [h.count hreset, hlength]
    omega
  · intro hyes
    cases hyes
  · have hholds : State.holds { s.setUnused i with
        rdBitmapOld := s.rdBitmapOld &&& ~~~(1#16 <<< i.val)
        worker := .uploadLoop diff (i + 1) } = s.holds := by
      funext j
      unfold State.holds
      dsimp only
      by_cases hj : j = i
      · rw [hj, hself, hw, hasCalled_uploadRetire]
        simp
      · rw [hdescs j hj, hw, hasCalled_uploadRetire, hasCalled_uploadLoop, decide_eq_false hj]
    unfold State.held
    rw [hholds]
    exact h.custody
  · intro j hj
    by_cases heq : j = i
    · rw [heq] at hj
      have hno : ((s.setUnused i).descs i).used = true := hj
      rw [hself] at hno
      cases hno
    · have hold : ((s.setUnused i).descs j).used = true := hj
      rw [hdescs j heq] at hold
      show ∃ b, ((s.setUnused i).descs j).cb = some b
      rw [hdescs j heq]
      exact h.hasCb j hold
  · intro desc hdesc
    show ((s.setUnused i).descs desc).used = false
    by_cases heq : desc = i
    · rw [heq, hself]
    · rw [hdescs desc heq]
      exact h.entering desc hdesc
  · exact trivial

/-- A statement that only moves the worker. -/
theorem Inv.moveWorker (h : Inv s) (w : Worker) (hreset : w.resetting = s.worker.resetting)
    (hhas : ∀ i, (s.descs i).used = true → w.hasCalled i = s.worker.hasCalled i)
    (hfits : w.Fits s.descs) : Inv { s with worker := w } :=
  h.frame (fun _ => rfl) (fun _ => rfl) rfl rfl rfl rfl hreset hhas h.entering hfits

theorem inv_of_workerStep (h : Inv s) (hstep : workerStep limit s = some t)
    (hsafe : ∀ now (i : Port), s.worker = .expiryLoop now i → (s.descs i).used = true →
      ¬ limit < now - (s.descs i).tickAttached) : Inv t := by
  have hfits := h.fits
  -- most statements change nothing but where the worker is
  have hquiet : ∀ w : Worker, s.worker.resetting = false → (∀ i, s.worker.hasCalled i = false) →
      w.resetting = false → (∀ i, w.hasCalled i = false) → w.Fits s.descs →
      Inv { s with worker := w } := fun w hs hs' hw hw' =>
    h.moveWorker w (hw.trans hs.symm) fun i _ => (hw' i).trans (hs' i).symm
  unfold workerStep at hstep
  cases hworker : s.worker with
  | idle => rw [hworker] at hstep; cases hstep
  | uploadDiff rdBitmap =>
    simp only [hworker] at hstep hquiet
    cases hstep
    apply hquiet _ rfl (fun _ => rfl) <;> split <;> first | rfl | trivial | exact fun _ => rfl
  | uploadLoop diff i =>
    simp only [hworker] at hstep hquiet
    split at hstep
    · split at hstep
      · cases hstep
        exact hquiet _ rfl (fun _ => rfl) rfl (fun _ => rfl) trivial
      · cases hstep
        exact hquiet _ rfl (fun _ => rfl) rfl (fun _ => rfl) trivial
    · cases hstep
      exact hquiet _ rfl (fun _ => rfl) rfl (fun _ => rfl) trivial
  | uploadDesc diff i =>
    simp only [hworker] at hstep hquiet
    split at hstep
    · cases hstep
      exact hquiet _ rfl (fun _ => rfl) rfl (fun _ => rfl) trivial
    · rename_i hnext
      have hused : (s.descs i).used = true := by simpa using (not_or.mp hnext).1
      cases hstep
      have hkept : ∀ j, (Function.update s.descs i { s.descs i with ref := (s.descs i).ref - 1 } j).used
          = (s.descs j).used ∧
          (Function.update s.descs i { s.descs i with ref := (s.descs i).ref - 1 } j).cb =
            (s.descs j).cb := by
        intro j
        by_cases hj : j = i
        · rw [hj, Function.update_self]
          exact ⟨rfl, rfl⟩
        · rw [Function.update_of_ne hj]
          exact ⟨rfl, rfl⟩
      refine h.frame (fun j => (hkept j).1) (fun j => (hkept j).2) rfl rfl rfl rfl ?_ ?_ h.entering ?_
      · rw [hworker]
        dsimp only
        split <;> rfl
      · intro j _
        rw [hworker]
        dsimp only
        split <;> rfl
      · dsimp only
        split
        · trivial
        · exact (hkept i).1.trans hused
  | uploadCb diff i =>
    rw [hworker] at hfits
    simp only [hworker] at hstep
    refine h.callCb hstep hfits (by rw [hworker]; rfl) (decide_eq_true rfl) ?_ ?_ hfits
    · intro j hj
      rw [hworker]
      exact decide_eq_false hj
    · rw [hworker]
      rfl
  | uploadRetire diff i =>
    simp only [hworker] at hstep
    cases hstep
    exact h.retire hworker
  | expiryStart now =>
    simp only [hworker] at hstep hquiet
    cases hstep
    apply hquiet _ rfl (fun _ => rfl) <;> split <;> first | rfl | trivial | exact fun _ => rfl
  | expiryLoop now i =>
    simp only [hworker] at hstep hquiet
    split at hstep
    · rename_i hi
      split at hstep
      · cases hstep
        exact hquiet _ rfl (fun _ => rfl) rfl (fun _ => rfl) trivial
      · rename_i hold
        simp only [Bool.not_eq_true, not_or, Bool.not_eq_false, not_not] at hold
        exact absurd hold.2 (hsafe now ⟨i, hi⟩ hworker hold.1)
    · cases hstep
      exact hquiet _ rfl (fun _ => rfl) rfl (fun _ => rfl) trivial
  | expiryCb now i => rw [hworker] at hfits; exact hfits.elim
  | expiryRetire now i => rw [hworker] at hfits; exact hfits.elim
  | resetPort =>
    simp only [hworker] at hstep
    cases hstep
    refine h.frame (fun _ => rfl) (fun _ => rfl) rfl rfl rfl rfl ?_ ?_ h.entering trivial
    · rw [hworker]
      rfl
    · intro _ _
      rw [hworker]
      rfl
  | resetBitmap =>
    simp only [hworker] at hstep
    cases hstep
    refine ⟨fun hno => ?_, fun hno => ?_, fun _ => rfl, ?_, h.hasCb, h.entering, trivial⟩
    · cases hno
    · cases hno
    · have hholds : State.holds { s with rdBitmapOld := 0, worker := .resetLoop 0 } = s.holds := by
        funext i
        unfold State.holds
        rw [hworker, hasCalled_resetLoop, hasCalled_resetBitmap]
        simp
      unfold State.held
      rw [hholds]
      exact h.custody
  | resetLoop i =>
    simp only [hworker] at hstep
    split at hstep
    · rename_i hi
      have hother : ∀ j : Port, j ≠ ⟨i, hi⟩ →
          (Worker.resetLoop (i + 1)).hasCalled j = s.worker.hasCalled j := by
        intro j hj
        rw [hworker, hasCalled_resetLoop, hasCalled_resetLoop, decide_eq_decide]
        have hne : j.val ≠ i := fun heq => hj (Fin.ext heq)
        omega
      split at hstep
      · rename_i hused
        refine h.callCb hstep hused ?_ ?_ hother ?_ trivial
        · rw [hworker, hasCalled_resetLoop]
          simp
        · rw [hasCalled_resetLoop]
          simp
        · rw [hworker]
          rfl
      · rename_i hunused
        cases hstep
        refine h.moveWorker _ (by rw [hworker]; rfl) (fun j hj => hother j ?_) trivial
        rintro rfl
        exact hunused hj
    · rename_i hi
      cases hstep
      refine h.moveWorker _ (by rw [hworker]; rfl) (fun j _ => ?_) trivial
      rw [hworker, hasCalled_resetLoop]
      exact (decide_eq_true (by have := j.isLt; omega)).symm
  | resetDescs =>
    simp only [hworker] at hstep
    cases hstep
    refine ⟨fun hno => ?_, fun hno => ?_, fun _ => ?_, ?_, fun i hi => ?_, fun _ _ => rfl, fun _ => rfl⟩
    · cases hno
    · cases hno
    · exact h.cleared (by rw [hworker]; rfl)
    · have hholds : State.holds { s with descs := fun _ => .zero, worker := .resetAttached } = s.holds := by
        funext i
        unfold State.holds
        rw [hworker, hasCalled_resetDescs]
        simp [SdioTxDesc.zero]
      unfold State.held
      rw [hholds]
      exact h.custody
    · cases hi
  | resetAttached =>
    rw [hworker] at hfits
    simp only [hworker] at hstep
    cases hstep
    have hzero : s.rdBitmapOld = 0 := h.cleared (by rw [hworker]; rfl)
    refine ⟨fun _ i => ?_, fun _ => ?_, fun hyes => ?_, ?_, h.hasCb, h.entering, trivial⟩
    · show s.rdBitmapOld.getLsbD i = (s.descs i).used
      rw [hzero, hfits i]
      simp
    · show 0 = (usedPorts s.descs).length
      have hnone : usedPorts s.descs = [] :=
        List.filter_eq_nil_iff.mpr fun i _ => by rw [hfits i]; decide
      rw [hnone]
      rfl
    · cases hyes
    · have hholds : State.holds { s with attached := 0, worker := .idle } = s.holds := by
        funext i
        unfold State.holds
        rw [hworker]
        rfl
      unfold State.held
      rw [hholds]
      exact h.custody

/-! ## Runs -/

theorem inv_initial : Inv initial where
  bits _ i := by simp [initial, SdioTxDesc.zero]
  count _ := by decide
  cleared _ := rfl
  custody := by
    have hnone : initial.held = [] := by decide
    rw [hnone]
    exact Custody.none
  hasCb i hi := nomatch hi
  entering _ _ := rfl
  fits := trivial

theorem Inv.start (h : Inv s) (hstep : startWork s w = some t) (hreset : w.resetting = false)
    (hhas : ∀ i, w.hasCalled i = false) (hfits : w.Fits s.descs) : Inv t := by
  unfold startWork at hstep
  split at hstep
  · rename_i hidle
    cases hstep
    refine h.moveWorker w ?_ (fun i _ => ?_) hfits
    · rw [hidle, hreset]
      rfl
    · rw [hidle, hhas]
      rfl
  · cases hstep

/-- Every safe step keeps the accounts in agreement. -/
theorem Inv.step (h : Inv s) (hstep : step limit s e = some t) (hsafe : Safe limit s e t) :
    Inv t := by
  cases e with
  | call =>
    obtain ⟨-, ht⟩ := Option.ite_none_right_eq_some.mp hstep
    cases ht
    exact h.frame (fun _ => rfl) (fun _ => rfl) rfl rfl rfl rfl rfl (fun _ _ => rfl)
      (fun _ hdesc => nomatch hdesc) h.fits
  | giveUp =>
    obtain ⟨-, ht⟩ := Option.ite_none_right_eq_some.mp hstep
    cases ht
    exact h.frame (fun _ => rfl) (fun _ => rfl) rfl rfl rfl rfl rfl (fun _ _ => rfl)
      (fun _ hdesc => nomatch hdesc) h.fits
  | send tick => exact inv_of_senderStep h hstep fun desc hdesc => hsafe.inStep tick desc rfl hdesc
  | upload rdBitmap => exact h.start hstep rfl (fun _ => rfl) trivial
  | checkTxTimeout now => exact h.start hstep rfl (fun _ => rfl) trivial
  | reinit => exact h.start hstep rfl (fun _ => rfl) trivial
  | work => exact inv_of_workerStep h hstep fun now i => hsafe.inTime rfl now i

theorem mem_held : b ∈ s.held ↔ s.Attached b := by
  unfold State.held State.Attached
  simp only [List.mem_filterMap, List.mem_finRange, true_and, State.holds,
    Option.ite_none_right_eq_some, Bool.not_eq_true]
  constructor
  · rintro ⟨i, ⟨hused, hcalled⟩, hcb⟩
    exact ⟨i, hused, hcb, hcalled⟩
  · rintro ⟨i, hused, hcb, hcalled⟩
    exact ⟨i, ⟨hused, hcalled⟩, hcb⟩

theorem Inv.usable (h : Inv s) (hreset : s.worker.resetting = false) (hwaiting : s.sender = .waiting)
    (hunused : (s.descs s.currUpldPort).used = false) : s.Usable limit := by
  intro tick
  have hclear : s.rdBitmapOld.getLsbD s.currUpldPort = false := by rw [h.bits hreset, hunused]
  refine ⟨(State.attach { s with sender := .entering s.currUpldPort } s.currUpldPort tick), ?_, rfl, ?_⟩
  · have hleave : TrcverSdio.step limit s (.send tick) = some { s with sender := .passed } := by
      show senderStep s tick = _
      simp only [senderStep, hwaiting, hclear, Bool.false_eq_true, if_false]
    have hlook : TrcverSdio.step limit { s with sender := .chosen s.currUpldPort } (.send tick) =
        some { s with sender := .entering s.currUpldPort } := by
      show senderStep { s with sender := .chosen s.currUpldPort } tick = _
      simp only [senderStep, hunused, Bool.false_eq_true, if_false]
    show (TrcverSdio.step limit s (.send tick)).bind _ = _
    rw [hleave, Option.bind_some]
    show (TrcverSdio.step limit { s with sender := .chosen s.currUpldPort } (.send tick)).bind _ = _
    rw [hlook]
    rfl
  · rw [attach_descs_self]

/-- A callback that is about to be called is there. -/
theorem Inv.callable (h : Inv s) (hbusy : s.worker ≠ .idle) : (workerStep limit s).isSome := by
  have hfits := h.fits
  have hcall : ∀ i w, (s.descs i).used = true → (s.callCb i w).isSome := by
    intro i w hused
    obtain ⟨b, hb⟩ := h.hasCb i hused
    simp [State.callCb, hb]
  unfold workerStep
  cases hworker : s.worker with
  | idle => exact absurd hworker hbusy
  | uploadCb diff i =>
    rw [hworker] at hfits
    exact hcall i _ hfits
  | expiryCb now i => rw [hworker] at hfits; exact hfits.elim
  | uploadLoop diff i => dsimp only; split <;> [split; skip] <;> rfl
  | uploadDesc diff i => dsimp only; split <;> rfl
  | expiryLoop now i => dsimp only; split <;> [split; skip] <;> rfl
  | resetLoop i =>
    dsimp only
    split
    · split
      · rename_i hused
        exact hcall _ _ hused
      · rfl
    · rfl
  | _ => rfl

theorem Inv.good (h : Inv t) : Good limit s e t where
  bits := h.bits
  count := h.count
  attached b _ hb hcalled := by
    have hnodup := (List.Perm.nodup_iff h.custody).mpr List.nodup_range
    exact (List.nodup_append.mp hnodup).2.2 b hcalled b (mem_held.mpr hb) rfl
  retired b hb hnot := by
    have hcount := h.custody.count hb
    have hnone : t.held.count b = 0 := List.count_eq_zero.mpr fun hmem => hnot (mem_held.mp hmem)
    rwa [List.count_append, hnone] at hcount
  usable := h.usable
  callable := h.callable

/-- In every run without an expired descriptor or an overtaken buffer, bits, `used` and the
counter agree, and each callback has been called once if its descriptor is retired and not
before. -/
theorem tx_descs_along (limit : UInt64) (events : List Event)
    (h : Along (step limit) (Safe limit) initial events) :
    Along (step limit) (Good limit) initial events :=
  along_of_invariant (fun _ _ _ hinv hstep hsafe =>
    ⟨(hinv.step hstep hsafe).good, hinv.step hstep hsafe⟩) inv_initial h

/-- A buffer is attached at port 0. -/
def attachOnce : List Event := [.call, .send 0, .send 0, .send 0, .send 0]

theorem tx_descs_along_once : Along (step 450) (Good 450) initial attachOnce := by
  refine tx_descs_along 450 attachOnce ?_
  have hquiet : ∀ {s t : State} {e : Event}, e ≠ .work →
      (∀ desc, s.sender = .entering desc → False) → Safe 450 s e t := fun he hs =>
    ⟨fun h => absurd h he, fun tick desc _ h => (hs desc h).elim⟩
  intro _ hcall
  cases hcall
  refine ⟨hquiet (by decide) (by rintro desc ⟨⟩), ?_⟩
  intro _ hsend
  cases hsend
  refine ⟨hquiet (by decide) (by rintro desc ⟨⟩), ?_⟩
  intro _ hsend
  cases hsend
  refine ⟨hquiet (by decide) (by rintro desc ⟨⟩), ?_⟩
  intro _ hsend
  cases hsend
  refine ⟨hquiet (by decide) (by rintro desc ⟨⟩), ?_⟩
  intro _ hsend
  cases hsend
  refine ⟨⟨(nomatch ·), fun tick desc _ hdesc => ?_⟩, along_nil⟩
  cases hdesc
  exact ⟨rfl, rfl⟩

/-- The descriptor of port 0 expires, and its bit stays. -/
theorem expired_port_lost : ¬ ∀ events, Along (step 450) (Good 450) initial events := by
  intro hall
  have hrun := hall (attachOnce ++ [.checkTxTimeout 451, .work, .work, .work] ++ [.work])
  refine not_along_of_run rfl rfl (fun hgood => ?_) hrun
  exact absurd (hgood.bits rfl 0) (by decide)

end BouffaloSdk.TrcverSdio
