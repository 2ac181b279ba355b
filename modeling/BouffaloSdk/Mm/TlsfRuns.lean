import BouffaloSdk.Kit.Runs
import BouffaloSdk.Mm.TlsfPool

/-!
# Runs of the heap's clients

Clients ask for memory, store into what they have and give it back. In every run what is
handed out stays apart and keeps what was stored in it, and the heap stays whole.
-/

namespace BouffaloSdk.Mm

open Kit Kit.Tiling Tlsf

namespace Heap

variable (h : Heap)

/-! ## The calls of the SDK -/

def bflbMalloc (nbytes : ℕ) : Heap × ℕ := h.tlsfMemalign 32 nbytes

def bflbFree (ptr : ℕ) : Heap := h.tlsfFree ptr

def bflbCalloc (count size : ℕ) : Heap × ℕ :=
  let total := count * size % 2 ^ 32
  if count > 0 ∧ size > 0 then
    if count ≤ (2 ^ 32 - 1) / size then
      let (h, ptr) := h.tlsfMalloc total
      if ptr ≠ 0 then (h.memset ptr 0 total, ptr) else (h, ptr)
    else (h, 0)
  else (h, 0)

def bflbMallocAlign (align size : ℕ) : Heap × ℕ := h.tlsfMemalign align size

end Heap

/-- What a client holds: where it is, and the size and alignment it asked for. -/
structure Allocation where
  ptr : ℕ
  size : ℕ
  align : ℕ
  deriving DecidableEq, Repr

def Allocation.holds (u : Allocation) (y : ℕ) : Bool := u.ptr ≤ y && y < u.ptr + u.size

structure Client where
  heap : Heap
  live : List Allocation
  /-- The byte last stored at an address of a live allocation. -/
  said : ℕ → Option ℕ

/-- Interrupts are off during a call, so calls do not interleave. -/
inductive Call
  | malloc (nbytes : ℕ)
  | mallocAlign (k nbytes : ℕ)
  | calloc (count size : ℕ)
  | free (ptr : ℕ)
  | store (addr value : ℕ)

namespace Client

def fresh (h : Heap) : Client := ⟨h, [], fun _ => none⟩

/-- After a call that returned `r.2`; `byte` is what it left in the storage. -/
def granted (c : Client) (r : Heap × ℕ) (size align : ℕ) (byte : Option ℕ) : Client :=
  if r.2 = 0 then { c with heap := r.1 }
  else
    { heap := r.1
      live := ⟨r.2, size, align⟩ :: c.live
      said := fun y => if r.2 ≤ y ∧ y < r.2 + size then byte else c.said y }

def released (c : Client) (ptr : ℕ) : Client :=
  { heap := c.heap.bflbFree ptr
    live := c.live.filter (·.ptr ≠ ptr)
    said := fun y => if (c.live.filter (·.ptr ≠ ptr)).any (·.holds y) then c.said y else none }

def stored (c : Client) (addr value : ℕ) : Client :=
  { c with
    heap := { c.heap with mem := Function.update c.heap.mem addr value }
    said := Function.update c.said addr (some value) }

/-- A client frees only what it holds, or `NULL`, and stores only into what it holds. -/
def step (c : Client) : Call → Option Client
  | .malloc nbytes =>
    if nbytes < 2 ^ 32 then some (c.granted (c.heap.bflbMalloc nbytes) nbytes 32 none) else none
  | .mallocAlign k nbytes =>
    if k ≤ 31 ∧ nbytes < 2 ^ 32 then
      some (c.granted (c.heap.bflbMallocAlign (2 ^ k) nbytes) nbytes (2 ^ k) none)
    else none
  | .calloc count size =>
    if count < 2 ^ 32 ∧ size < 2 ^ 32 then
      some (c.granted (c.heap.bflbCalloc count size) (count * size) 4 (some 0))
    else none
  | .free ptr =>
    if ptr = 0 then some { c with heap := c.heap.bflbFree ptr }
    else if c.live.any (·.ptr == ptr) then some (c.released ptr)
    else none
  | .store addr value => if c.live.any (·.holds addr) then some (c.stored addr value) else none

end Client

variable {h h' : Heap} {a n k s t x y v start bytes size align ptr addr value top : ℕ}
  {xs ys bs cs : List Piece} {c c' : Client} {u w : Allocation} {byte : Option ℕ} {call : Call}
  {calls : List Call} {mem : ℕ → ℕ} {P : ℕ → Prop}

theorem holds_iff : u.holds y = true ↔ u.ptr ≤ y ∧ y < u.ptr + u.size := by
  simp [Allocation.holds]

/-- The used blocks of the row are what the client holds, each at least as large as asked for,
with what the client stored in it. -/
structure Tracks (c : Client) (a : ℕ) (bs : List Piece) : Prop where
  ok : Ok c.heap a bs
  block : ∀ u ∈ c.live, ∃ x s, u.ptr = x + 8 ∧ u.size ≤ s ∧ (x, s) ∈ useds a bs
  asked : ∀ u ∈ c.live, 0 < u.size ∧ u.align ∣ u.ptr
  owned : ∀ x s, (x, s) ∈ useds a bs → ∃ u ∈ c.live, u.ptr = x + 8
  distinct : c.live.Pairwise fun u w => u.ptr ≠ w.ptr
  said : ∀ y v, c.said y = some v → c.heap.mem y = v ∧ ∃ u ∈ c.live, u.holds y = true

namespace Tracks

theorem payload (ht : Tracks c a bs) (hu : u ∈ c.live) (hy : u.holds y = true) : Payload a bs y := by
  obtain ⟨x, s, hptr, hle, hmem⟩ := ht.block u hu
  have hy' := holds_iff.mp hy
  exact payload_iff.mpr ⟨(x, s), hmem, by simp only; omega, by simp only; omega⟩

end Tracks

/-! ## Stores of the client -/

/-- Stores into what is handed out leave the heap as it is. -/
theorem Ok.write (ho : Ok h a bs) (hf : Frame h h' (Payload a bs)) (hsame : SameLists h h') :
    Ok h' a bs := by
  obtain ⟨lists, hlisted⟩ := ho.laid.lists
  have hclear : ∀ x p, (x, p) ∈ place Piece.span a (bs ++ [sentinel]) → ∀ y, x + 4 ≤ y →
      y < x + 8 + p.size → (p.free = true ∨ y < x + 8) → ¬ Payload a bs y := by
    intro x p hmem y hlow hhigh hspare
    rw [place_append] at hmem
    cases List.mem_append.mp hmem with
    | inl hin => exact not_payload_of_mem hin hlow hhigh hspare
    | inr hlast =>
      obtain ⟨rfl, rfl⟩ := Prod.mk.inj (List.mem_singleton.mp hlast)
      intro hpay
      have hbounds := payload_bounds hpay
      omega
  refine ⟨⟨?_, ⟨lists, hlisted.frame hf hsame ?_⟩, hf.blockNull.symm ▸ ho.laid.fits, ho.laid.sub⟩,
    ho.coalesced⟩
  · apply ho.laid.seg.frame hf
    · intro x p hmem y hy
      obtain ⟨hlow, hhigh⟩ := hy
      exact hclear x p hmem y hlow (by omega) (.inr (by omega))
    · intro x p hmem hfree y hy
      obtain ⟨hlow, hhigh⟩ := hy
      have hspan : p.span = 4 + p.size := rfl
      exact hclear x p hmem y (by omega) (by omega) (.inl hfree)
  · intro x s hmem y hlow hhigh
    have hin := mem_frees.mp hmem
    obtain ⟨us, vs, hsplit, -⟩ := mem_place_iff.mp hin
    have hmin : 12 ≤ s := (ho.laid.fits.piece ⟨s, true⟩ (by simp [hsplit])).2
    exact not_payload_of_mem hin (by omega) (by simp only; omega) (.inl rfl)

theorem Tracks.stored (ht : Tracks c a bs) (hany : c.live.any (·.holds addr) = true) :
    Tracks (c.stored addr value) a bs := by
  obtain ⟨u, hu, hy⟩ := List.any_eq_true.mp hany
  have hframe : Frame c.heap (c.stored addr value).heap (Payload a bs) := by
    refine ⟨fun y hy' => ?_, rfl⟩
    refine Function.update_of_ne ?_ ..
    rintro rfl
    exact hy' (ht.payload hu hy)
  refine ⟨ht.ok.write hframe ⟨rfl, rfl, rfl⟩, ht.block, ht.asked, ht.owned, ht.distinct, ?_⟩
  intro y v hsaid
  simp only [Client.stored] at hsaid ⊢
  by_cases heq : y = addr
  · subst heq
    rw [Function.update_self] at hsaid ⊢
    exact ⟨Option.some.inj hsaid, u, hu, hy⟩
  · rw [Function.update_of_ne heq] at hsaid ⊢
    exact ht.said y v hsaid

/-! ## Requests -/

namespace Granted

/-- What is granted is no part of what was handed out before. -/
theorem apart (hx : ∀ t, (x, t) ∉ useds a bs)
    (hcs : ∀ y t, (y, t) ∈ useds a cs ↔ (y, t) = (x, s) ∨ (y, t) ∈ useds a bs)
    (hlow : x + 8 ≤ y) (hhigh : y < x + 8 + s) : ¬ Payload a bs y := by
  intro hpay
  obtain ⟨⟨x', t⟩, hmem, hlow', hhigh'⟩ := payload_iff.mp hpay
  have hnew := mem_useds.mp ((hcs x s).mpr (.inl rfl))
  have hold := mem_useds.mp ((hcs x' t).mpr (.inr hmem))
  simp only at hlow' hhigh'
  rcases mem_place_apart hnew hold with heq | hleft | hright
  · obtain ⟨rfl, -⟩ := Prod.mk.inj heq
    exact hx t hmem
  · simp only [span_mk] at hleft
    omega
  · simp only [span_mk] at hright
    omega

theorem memset (hg : Granted h h' a bs ptr size) (v : ℕ) :
    Granted h (h'.memset ptr v size) a bs ptr size := by
  obtain ⟨⟨cs, hok, hafter, x, s, rfl, hle, hx, hcs⟩, hframe⟩ := hg
  have hstore : Frame h' (h'.memset (x + 8) v size) fun y => x + 8 ≤ y ∧ y < x + 8 + size :=
    ⟨fun y hy => if_neg hy, rfl⟩
  refine ⟨⟨cs, ?_, hafter, x, s, rfl, hle, hx, hcs⟩, (hframe.trans hstore).mono ?_⟩
  · refine hok.write (hstore.mono fun y hy => ?_) ⟨rfl, rfl, rfl⟩
    exact payload_iff.mpr ⟨(x, s), (hcs x s).mpr (.inl rfl), hy.1, by simp only; omega⟩
  · rintro y (hy | ⟨hlow, hhigh⟩)
    · exact hy
    · exact apart hx hcs hlow (by omega)

end Granted

/-- The row once a request has been granted. -/
theorem Tracks.granted {r : Heap × ℕ} (ht : Tracks c a bs) (hg : Granted c.heap r.1 a bs r.2 size)
    (hpos : 0 < size) (halign : align ∣ r.2)
    (hbyte : ∀ y v, r.2 ≤ y → y < r.2 + size → byte = some v → r.1.mem y = v) :
    ∃ cs, Tracks (c.granted r size align byte) a cs ∧
      after Piece.span a cs = after Piece.span a bs := by
  obtain ⟨⟨cs, hok, hafter, x, s, hptr, hle, hx, hcs⟩, hframe⟩ := hg
  have hne : r.2 ≠ 0 := by omega
  refine ⟨cs, ?_, hafter⟩
  rw [Client.granted, if_neg hne]
  refine ⟨hok, ?_, ?_, ?_, ?_, ?_⟩
  · intro u hu
    cases List.mem_cons.mp hu with
    | inl hnew =>
      subst hnew
      exact ⟨x, s, hptr, hle, (hcs x s).mpr (.inl rfl)⟩
    | inr hold =>
      obtain ⟨x', s', hptr', hle', hmem⟩ := ht.block u hold
      exact ⟨x', s', hptr', hle', (hcs x' s').mpr (.inr hmem)⟩
  · intro u hu
    cases List.mem_cons.mp hu with
    | inl hnew =>
      subst hnew
      exact ⟨hpos, halign⟩
    | inr hold => exact ht.asked u hold
  · intro x' s' hmem
    cases (hcs x' s').mp hmem with
    | inl hnew =>
      obtain ⟨rfl, -⟩ := Prod.mk.inj hnew
      exact ⟨_, List.mem_cons_self, hptr⟩
    | inr hold =>
      obtain ⟨u, hu, huptr⟩ := ht.owned x' s' hold
      exact ⟨u, List.mem_cons_of_mem _ hu, huptr⟩
  · refine List.pairwise_cons.mpr ⟨fun u hu heq => ?_, ht.distinct⟩
    obtain ⟨x', s', hptr', -, hmem⟩ := ht.block u hu
    obtain rfl : x' = x := by
      simp only at heq
      omega
    exact hx s' hmem
  · intro y v hsaid
    simp only at hsaid ⊢
    by_cases hy : r.2 ≤ y ∧ y < r.2 + size
    · rw [if_pos hy] at hsaid
      exact ⟨hbyte y v hy.1 hy.2 hsaid, _, List.mem_cons_self, holds_iff.mpr hy⟩
    · rw [if_neg hy] at hsaid
      obtain ⟨hmem, u, hu, huy⟩ := ht.said y v hsaid
      have hkept := hframe.mem y (not_not.mpr (ht.payload hu huy))
      exact ⟨hkept.trans hmem, u, List.mem_cons_of_mem _ hu, huy⟩

theorem Tracks.refused (ht : Tracks c a bs) (size align : ℕ) (byte : Option ℕ) :
    Tracks (c.granted (c.heap, 0) size align byte) a bs := ht

theorem Tracks.memalign (ht : Tracks c a bs) (hk : k ≤ 31) (hsize : size < 2 ^ 32) :
    ∃ cs, Tracks (c.granted (c.heap.tlsfMemalign (2 ^ k) size) size (2 ^ k) none) a cs ∧
      after Piece.span a cs = after Piece.span a bs := by
  rcases tlsfMemalign_granted ht.ok hk hsize with ⟨hpos, hg, hdvd⟩ | hfail
  · exact ht.granted hg hpos hdvd fun _ _ _ _ hnone => by cases hnone
  · rw [hfail]
    exact ⟨bs, ht.refused .., rfl⟩

theorem Tracks.malloc (ht : Tracks c a bs) (hsize : size < 2 ^ 32) :
    ∃ cs, Tracks (c.granted (c.heap.bflbMalloc size) size 32 none) a cs ∧
      after Piece.span a cs = after Piece.span a bs := by
  have hpow : 2 ^ 5 = 32 := rfl
  have hgranted := ht.memalign (show 5 ≤ 31 by decide) hsize
  rw [hpow] at hgranted
  exact hgranted

theorem Granted.aligned (hg : Granted h h' a bs ptr size) : 4 ∣ ptr := by
  obtain ⟨⟨cs, hok, -, x, s, rfl, -, -, hcs⟩, -⟩ := hg
  obtain ⟨us, vs, rfl, rfl⟩ := mem_place_iff.mp (mem_useds.mp ((hcs x s).mpr (.inl rfl)))
  have haligned := hok.laid.fits.after_aligned
  omega

theorem Tracks.calloc {count : ℕ} (ht : Tracks c a bs) :
    ∃ cs, Tracks (c.granted (c.heap.bflbCalloc count size) (count * size) 4 (some 0)) a cs ∧
      after Piece.span a cs = after Piece.span a bs := by
  by_cases hsome : count > 0 ∧ size > 0
  · by_cases hfits : count ≤ (2 ^ 32 - 1) / size
    · have htotal : count * size ≤ 2 ^ 32 - 1 := (Nat.le_div_iff_mul_le hsome.2).mp hfits
      have hmod : count * size % 2 ^ 32 = count * size := Nat.mod_eq_of_lt (by omega)
      have heq : c.heap.bflbCalloc count size =
          if (c.heap.tlsfMalloc (count * size)).2 ≠ 0 then
            ((c.heap.tlsfMalloc (count * size)).1.memset (c.heap.tlsfMalloc (count * size)).2 0
              (count * size), (c.heap.tlsfMalloc (count * size)).2)
          else c.heap.tlsfMalloc (count * size) := by
        unfold Heap.bflbCalloc
        simp only [if_pos hsome, if_pos hfits, hmod]
      rcases tlsfMalloc_granted ht.ok (show count * size < 2 ^ 32 by omega) with ⟨hpos, hg⟩ | hfail
      · have hne : (c.heap.tlsfMalloc (count * size)).2 ≠ 0 := by
          obtain ⟨⟨-, -, -, x, -, hptr, -⟩, -⟩ := hg
          omega
        rw [heq, if_pos hne]
        refine ht.granted (hg.memset 0) hpos hg.aligned fun y v hlow hhigh hv => ?_
        obtain rfl := Option.some.inj hv
        exact if_pos ⟨hlow, hhigh⟩
      · rw [heq, hfail, if_neg (not_not.mpr rfl)]
        exact ⟨bs, ht.refused .., rfl⟩
    · have heq : c.heap.bflbCalloc count size = (c.heap, 0) := by
        unfold Heap.bflbCalloc
        simp only [if_pos hsome, if_neg hfits]
      rw [heq]
      exact ⟨bs, ht.refused .., rfl⟩
  · have heq : c.heap.bflbCalloc count size = (c.heap, 0) := by
      unfold Heap.bflbCalloc
      simp only [if_neg hsome]
    rw [heq]
    exact ⟨bs, ht.refused .., rfl⟩

/-! ## Giving back -/

theorem mem_useds_released : (y, t) ∈ useds a (Mm.released xs s ys) ↔
    (y, t) ∈ useds a (xs ++ ⟨s, false⟩ :: ys) ∧ y ≠ after Piece.span a xs := by
  rw [useds_released]
  simp only [useds_append, useds_cons_free, useds_cons_used, List.mem_append, List.mem_cons,
    Prod.mk.injEq]
  have hleft : (y, t) ∈ useds a xs → y ≠ after Piece.span a xs := by
    intro hmem
    have hbounds := mem_place_bounds (mem_useds.mp hmem)
    simp only [span_mk] at hbounds
    omega
  have hright : (y, t) ∈ useds (after Piece.span a xs + (4 + s)) ys → y ≠ after Piece.span a xs := by
    intro hmem
    have hbounds := mem_place_bounds (mem_useds.mp hmem)
    omega
  tauto

theorem Tracks.released (ht : Tracks c a bs) (hany : c.live.any (·.ptr == ptr) = true) :
    ∃ cs, Tracks (c.released ptr) a cs ∧ after Piece.span a cs = after Piece.span a bs := by
  obtain ⟨u, hu, hptr⟩ := List.any_eq_true.mp hany
  obtain rfl : u.ptr = ptr := beq_iff_eq.mp hptr
  obtain ⟨x, s, huptr, -, hmem⟩ := ht.block u hu
  obtain ⟨xs, ys, rfl, rfl⟩ := mem_place_iff.mp (mem_useds.mp hmem)
  obtain ⟨hok, hframe⟩ := tlsfFree_spec ht.ok
  have hlive : ∀ w, w ∈ c.live.filter (·.ptr ≠ u.ptr) ↔ w ∈ c.live ∧ w.ptr ≠ u.ptr := by
    intro w
    simp
  have hblock : ∀ w ∈ c.live.filter (·.ptr ≠ u.ptr), ∃ x t, w.ptr = x + 8 ∧ w.size ≤ t ∧
      (x, t) ∈ useds a (Mm.released xs s ys) := by
    intro w hw
    obtain ⟨hw, hne⟩ := (hlive w).mp hw
    obtain ⟨x', t, hwptr, hle, hmem'⟩ := ht.block w hw
    exact ⟨x', t, hwptr, hle, mem_useds_released.mpr ⟨hmem', by omega⟩⟩
  refine ⟨Mm.released xs s ys, ?_, after_released⟩
  unfold Client.released Heap.bflbFree
  rw [huptr] at hlive hblock ⊢
  refine ⟨hok, hblock, fun w hw => ht.asked w ((hlive w).mp hw).1, ?_, ht.distinct.filter _, ?_⟩
  · intro x' t hmem'
    obtain ⟨hold, hne⟩ := mem_useds_released.mp hmem'
    obtain ⟨w, hw, hwptr⟩ := ht.owned x' t hold
    exact ⟨w, (hlive w).mpr ⟨hw, by omega⟩, hwptr⟩
  · intro y v hsaid
    simp only at hsaid ⊢
    split at hsaid
    · next hheld =>
      obtain ⟨w, hw, hwy⟩ := List.any_eq_true.mp hheld
      have hpay : Payload a (Mm.released xs s ys) y := by
        obtain ⟨x', t, hwptr, hle, hmem'⟩ := hblock w hw
        have hy := holds_iff.mp hwy
        exact payload_iff.mpr ⟨(x', t), hmem', by simp only; omega, by simp only; omega⟩
      have hkept := hframe.mem y (not_not.mpr ((payload_congr useds_released).mp hpay))
      exact ⟨hkept.trans (ht.said y v hsaid).1, w, hw, hwy⟩
    · cases hsaid

/-! ## Runs -/

/-- The client's allocations are the used blocks of a row that ends at `top`. -/
def Client.Whole (a top : ℕ) (c : Client) : Prop :=
  ∃ bs, Tracks c a bs ∧ after Piece.span a bs = top

theorem Client.Whole.step (hw : Client.Whole a top c) (hstep : c.step call = some c') :
    Client.Whole a top c' := by
  obtain ⟨bs, ht, rfl⟩ := hw
  cases call with
  | malloc nbytes =>
    obtain ⟨hsize, hnext⟩ := Option.ite_none_right_eq_some.mp hstep
    obtain rfl := Option.some.inj hnext
    exact ht.malloc hsize
  | mallocAlign k nbytes =>
    obtain ⟨⟨hk, hsize⟩, hnext⟩ := Option.ite_none_right_eq_some.mp hstep
    obtain rfl := Option.some.inj hnext
    exact ht.memalign hk hsize
  | calloc count size =>
    obtain ⟨-, hnext⟩ := Option.ite_none_right_eq_some.mp hstep
    obtain rfl := Option.some.inj hnext
    exact ht.calloc
  | free ptr =>
    simp only [Client.step] at hstep
    by_cases hnull : ptr = 0
    · subst hnull
      rw [if_pos rfl] at hstep
      obtain rfl := Option.some.inj hstep
      exact ⟨bs, ht, rfl⟩
    · rw [if_neg hnull] at hstep
      obtain ⟨hany, hnext⟩ := Option.ite_none_right_eq_some.mp hstep
      obtain rfl := Option.some.inj hnext
      exact ht.released hany
  | store addr value =>
    obtain ⟨hany, hnext⟩ := Option.ite_none_right_eq_some.mp hstep
    obtain rfl := Option.some.inj hnext
    exact ⟨bs, ht.stored hany, rfl⟩

/-- What `bflb_mem_init` is given: aligned, room for the control structure and a block, not
more than a block can be, and no wrap of addresses. -/
structure PoolFits (start bytes : ℕ) : Prop where
  aligned : 4 ∣ start
  top : start + bytes ≤ 2 ^ 32
  min : 12 ≤ poolBytes bytes
  max : poolBytes bytes < 2 ^ 30

theorem Tracks.fresh (ho : Ok h a [⟨s, true⟩]) : Tracks (Client.fresh h) a [⟨s, true⟩] where
  ok := ho
  block _ hu := absurd hu List.not_mem_nil
  asked _ hu := absurd hu List.not_mem_nil
  owned _ _ hmem := by simp at hmem
  distinct := List.Pairwise.nil
  said _ _ hnone := by cases hnone

theorem whole_of_run (hp : PoolFits start bytes) (hcreate : tlsfCreateWithPool mem start bytes = some h)
    (hrun : Runs.run Client.step (Client.fresh h) calls = some c) :
    Client.Whole (start + 3184) (start + 3188 + poolBytes bytes) c := by
  obtain ⟨g, hg, -, hok⟩ := tlsfCreateWithPool_ok mem hp.aligned hp.top hp.min hp.max
  obtain rfl : g = h := Option.some.inj (hg.symm.trans hcreate)
  have hend : after Piece.span (start + 3184) [⟨poolBytes bytes, true⟩] =
      start + 3188 + poolBytes bytes := by
    simp only [after_cons, after_nil, span_mk]
    omega
  exact Runs.inv_of_run (fun _ _ _ hw hstep => hw.step hstep) ⟨_, Tracks.fresh hok, hend⟩ hrun

theorem Tracks.apart (ht : Tracks c a bs) (hu : u ∈ c.live) (hw : w ∈ c.live) (hne : u.ptr ≠ w.ptr) :
    u.ptr + u.size ≤ w.ptr ∨ w.ptr + w.size ≤ u.ptr := by
  obtain ⟨x, s, hptr, hle, hmem⟩ := ht.block u hu
  obtain ⟨y, t, hptr', hle', hmem'⟩ := ht.block w hw
  rcases mem_place_apart (mem_useds.mp hmem) (mem_useds.mp hmem') with heq | hleft | hright
  · obtain ⟨rfl, -⟩ := Prod.mk.inj heq
    omega
  · simp only [span_mk] at hleft
    omega
  · simp only [span_mk] at hright
    omega

theorem poolFits_8192 : PoolFits 4096 8192 := ⟨by decide, by decide, by decide, by decide⟩

/-- In every run what is handed out lies in the pool, aligned as asked for, and no two
allocations share a byte. -/
theorem allocations_stay_apart (hp : PoolFits start bytes)
    (hcreate : tlsfCreateWithPool mem start bytes = some h)
    (hrun : Runs.run Client.step (Client.fresh h) calls = some c) :
    (c.live.Pairwise fun u w => u.ptr + u.size ≤ w.ptr ∨ w.ptr + w.size ≤ u.ptr) ∧
      ∀ u ∈ c.live, start + 3192 ≤ u.ptr ∧ u.ptr + u.size ≤ start + bytes ∧ u.align ∣ u.ptr := by
  obtain ⟨bs, ht, hafter⟩ := whole_of_run hp hcreate hrun
  refine ⟨ht.distinct.imp_of_mem fun hu hw hne => ht.apart hu hw hne, fun u hu => ?_⟩
  obtain ⟨x, s, hptr, hle, hmem⟩ := ht.block u hu
  have hbounds := mem_place_bounds (mem_useds.mp hmem)
  have hmin := hp.min
  unfold poolBytes at hafter hmin
  simp only [span_mk] at hbounds
  exact ⟨by omega, by omega, (ht.asked u hu).2⟩

theorem allocations_stay_apart_8192 :
    ∃ h c, tlsfCreateWithPool (fun _ => 0) 4096 8192 = some h ∧
      Runs.run Client.step (Client.fresh h) [.malloc 100, .calloc 3 5] = some c ∧
      c.live.Pairwise fun u w => u.ptr + u.size ≤ w.ptr ∨ w.ptr + w.size ≤ u.ptr := by
  obtain ⟨h, hcreate⟩ : ∃ h, tlsfCreateWithPool (fun _ => 0) 4096 8192 = some h := ⟨_, rfl⟩
  obtain ⟨c, hrun⟩ : ∃ c, Runs.run Client.step (Client.fresh h) [.malloc 100, .calloc 3 5] = some c :=
    ⟨_, rfl⟩
  exact ⟨h, c, hcreate, hrun, (allocations_stay_apart poolFits_8192 hcreate hrun).1⟩

/-- In every run a byte stored into an allocation is there until the allocation is freed or the
byte is stored anew. -/
theorem stored_bytes_stay (hp : PoolFits start bytes)
    (hcreate : tlsfCreateWithPool mem start bytes = some h)
    (hrun : Runs.run Client.step (Client.fresh h) calls = some c) (hsaid : c.said y = some v) :
    c.heap.mem y = v := by
  obtain ⟨bs, ht, -⟩ := whole_of_run hp hcreate hrun
  exact (ht.said y v hsaid).1

/-- A request is served when a free block is large enough for its class. -/
theorem Ok.tlsfMalloc_ne_zero (ho : Ok h a bs) (hx : (x, s) ∈ frees a bs) (hpos : 0 < size)
    (hmax : size ≤ 2 ^ 30 - 4)
    (hlarge : adjustRequestSize size 4 + searchRound (adjustRequestSize size 4) ≤ s) :
    (h.tlsfMalloc size).2 ≠ 0 := by
  rcases tlsfMalloc_spec ho (show size < 2 ^ 32 by omega) with
    ⟨xs, s, ys, -, -, -, -, hptr, -⟩ | ⟨-, hzero | hbig | hsmall⟩
  · omega
  · omega
  · omega
  · exact absurd (hsmall x s hx) (by omega)

theorem stored_bytes_stay_8192 :
    ∃ h c y, tlsfCreateWithPool (fun _ => 0) 4096 8192 = some h ∧
      Runs.run Client.step (Client.fresh h) [.calloc 3 5] = some c ∧ c.said y = some 0 ∧
      c.heap.mem y = 0 := by
  obtain ⟨h, hcreate, -, hok⟩ := tlsfCreateWithPool_ok (fun _ => 0) poolFits_8192.aligned
    poolFits_8192.top poolFits_8192.min poolFits_8192.max
  have hne : (h.tlsfMalloc 15).2 ≠ 0 :=
    hok.tlsfMalloc_ne_zero (x := 7280) (s := 4996) (by decide) (by decide) (by decide) (by decide)
  have heq : h.bflbCalloc 3 5 = ((h.tlsfMalloc 15).1.memset (h.tlsfMalloc 15).2 0 15,
      (h.tlsfMalloc 15).2) := if_pos hne
  obtain ⟨c, hc⟩ : ∃ c, c = (Client.fresh h).granted (h.bflbCalloc 3 5) 15 4 (some 0) := ⟨_, rfl⟩
  have hrun : Runs.run Client.step (Client.fresh h) [.calloc 3 5] = some c := by
    rw [hc]
    rfl
  have hsaid : c.said (h.tlsfMalloc 15).2 = some 0 := by
    rw [hc, heq, Client.granted, if_neg hne]
    exact if_pos ⟨Nat.le_refl _, by simp⟩
  exact ⟨h, c, _, hcreate, hrun, hsaid, stored_bytes_stay poolFits_8192 hcreate hrun hsaid⟩

/-- Two free blocks are never neighbours, so a row without used blocks is one block. -/
theorem eq_singleton_of_useds_nil (hc : Coalesced false bs) (hused : useds a bs = [])
    (hafter : after Piece.span a bs = a + 4 + n) : bs = [⟨n, true⟩] := by
  cases bs with
  | nil =>
    rw [after_nil] at hafter
    omega
  | cons p ps =>
    obtain ⟨s, f⟩ := p
    cases f with
    | false => simp at hused
    | true =>
      cases ps with
      | nil =>
        simp only [after_cons, after_nil, span_mk] at hafter
        obtain rfl : s = n := by omega
        rfl
      | cons q qs =>
        obtain ⟨t, g⟩ := q
        cases g with
        | false => simp at hused
        | true => exact absurd ⟨rfl, rfl⟩ hc.2.1

/-- In every run `tlsf_check` and `tlsf_check_pool` find nothing wrong. -/
theorem checks_find_nothing (hp : PoolFits start bytes)
    (hcreate : tlsfCreateWithPool mem start bytes = some h)
    (hrun : Runs.run Client.step (Client.fresh h) calls = some c) :
    ∃ fuel, ∀ k, c.heap.tlsfCheck (fuel + k) = some 0 ∧
      c.heap.tlsfCheckPool (fuel + k) (start + 3188) = some 0 := by
  obtain ⟨bs, ht, -⟩ := whole_of_run hp hcreate hrun
  exact ⟨bs.length + 1, fun k => ⟨ht.ok.tlsfCheck k, ht.ok.laid.tlsfCheckPool k⟩⟩

theorem checks_find_nothing_8192 :
    ∃ h c, tlsfCreateWithPool (fun _ => 0) 4096 8192 = some h ∧
      Runs.run Client.step (Client.fresh h) [.malloc 100, .mallocAlign 6 40] = some c ∧
      ∃ fuel, c.heap.tlsfCheck fuel = some 0 := by
  obtain ⟨h, hcreate⟩ : ∃ h, tlsfCreateWithPool (fun _ => 0) 4096 8192 = some h := ⟨_, rfl⟩
  obtain ⟨c, hrun⟩ : ∃ c, Runs.run Client.step (Client.fresh h)
      [.malloc 100, .mallocAlign 6 40] = some c := ⟨_, rfl⟩
  obtain ⟨fuel, hchecks⟩ := checks_find_nothing poolFits_8192 hcreate hrun
  exact ⟨h, c, hcreate, hrun, fuel, (hchecks 0).1⟩

end BouffaloSdk.Mm
