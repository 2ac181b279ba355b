import BouffaloSdk.Crypto.EcpDigits

/-!
# The multiple of a point

The table that a call works with, and the loop over the digits: register 17 holds the
multiple of the point that the digits so far say.
-/

namespace BouffaloSdk.Ecp
open Kit Kit.Montgomery Kit.ShortWeierstrass Pka Bignum

section
variable {p s prime : Nat} [Fact p.Prime] {ram : Ram} {grp : Group} {heap : EcpHeap}
variable {caches : Caches} {pt : EcpPoint} {b : ZMod p}
variable {q : (curve (coefficient p grp.a) b).toAffine.Point}

/-- The coordinates of `q`, as `mbedtls_ecp_check_pubkey` asks for them. -/
structure EcpPoint.Names (pt : EcpPoint) (q : (curve (coefficient p grp.a) b).toAffine.Point) :
    Prop where
  x : pt.x < p
  y : pt.y < p
  z : pt.z = 1
  coords : HasCoords q (pt.x : ZMod p) (pt.y : ZMod p)

theorem loadPoint_holds (hfits : Field.Fits p s prime) {a : ZMod p} (hram : Prepared s p prime a ram)
    (hpt : pt.Names q) :
    HoldsPoint s (runOps s (loadPoint pt) ram) 17 ⟨(pt.x : ZMod p), (pt.y : ZMod p), 1⟩ := by
  have hone : 1 < p := (Fact.out : p.Prime).one_lt
  have hr := hfits.radix_ne_zero
  have hlive : ∀ j, j ∈ [2] → ∃ u : ZMod p, Holds s ram j u := by
    intro j hj
    rw [List.mem_singleton.mp hj]
    exact ⟨_, hram.scale⟩
  have hok : OpsOk p [2] (loadPoint pt) := by
    simp [loadPoint, OpsOk, PkaOp.Ok, PkaOp.reads, PkaOp.dest, hpt.x, hpt.y, hpt.z, hone]
  have hrun : ∀ {i : Nat} {u : ZMod p}, i ∈ [17, 18, 19] →
      evalOps s (loadPoint pt) (element p s ram) i = u → Holds s (runOps s (loadPoint pt) ram) i u :=
    fun {i u} hi hu => runOps_element hfits hram.loaded hlive hok (by
      simp only [List.mem_cons, List.not_mem_nil, or_false] at hi
      rcases hi with rfl | rfl | rfl <;> simp [loadPoint, PkaOp.dest]) hu
  refine ⟨hrun (by simp) ?_, hrun (by simp) ?_, hrun (by simp) ?_⟩
  · simp [loadPoint, evalOps_cons, evalOps_nil, PkaOp.dest, PkaOp.value, hram.scale.element_eq hfits]
    field_simp
  · simp [loadPoint, evalOps_cons, evalOps_nil, PkaOp.dest, PkaOp.value, hram.scale.element_eq hfits]
    field_simp
  · simp [loadPoint, evalOps_cons, evalOps_nil, PkaOp.dest, PkaOp.value, hram.scale.element_eq hfits,
      hpt.z]
    field_simp

theorem loadPoint_kept : Kept s ram (runOps s (loadPoint pt) ram) :=
  runOps_kept (by simp [loadPoint, PkaOp.dest])

/-! ## The table of a point -/

/-- The first entry, and what the other entries are computed from. -/
theorem oddTable_of_parts {t : Table} {tz : Nat → Nat} {res : Ram × Table}
    (hfits : Field.Fits p s prime) (hram : Loaded s p prime ram) (hfirst : Entry s (t 0) q)
    (hrest : ∀ l, l < 7 → Unscaled s t tz l q)
    (hres : ecpNormalizeManySwst heap s (fun i => t (i + 1)) tz 7 ram = .ok res) :
    OddTable s (fun i => if i = 0 then t 0 else res.2 (i - 1)) q := by
  have hall : ∀ l, ∃ j : Jacobian (ZMod p), l < 7 → Represents ((2 * (l + 1) + 1) • q) j ∧
      Stored p s (t (l + 1)).1 j.x ∧ Stored p s (t (l + 1)).2 j.y ∧ Stored p s (tz l) j.z := by
    intro l
    by_cases hl : l < 7
    · obtain ⟨j, hj⟩ := hrest l hl
      exact ⟨j, fun _ => hj⟩
    · exact ⟨⟨0, 0, 0⟩, fun hlt => absurd hlt hl⟩
  choose j hj using hall
  have hscaled := normalizeMany_stored (fun l => (j l).x) (fun l => (j l).y) (fun l => (j l).z)
    hfits hram (fun l hl => (hj l hl).1.nonzero) (fun l hl => (hj l hl).2.2.2)
    (fun l hl => (hj l hl).2.1) (fun l hl => (hj l hl).2.2.1) hres
  intro i hi
  cases i with
  | zero =>
    rw [Nat.mul_zero, Nat.zero_add, one_smul]
    exact hfirst
  | succ l =>
    obtain ⟨hx, hy⟩ := hscaled l (by omega)
    exact ⟨_, _, (hj l (by omega)).1.coords, hx, hy⟩

theorem newTable_kept {a : Option Nat} {res : Ram × Table} (hres : newTable heap a s ram = .ok res) :
    Kept s ram res.1 := by
  unfold newTable at hres
  dsimp only at hres
  split at hres
  · cases hres
  rename_i rest hrest
  obtain rfl := Except.ok.inj hres
  rw [runOps_append] at hrest
  have hdouble : Kept s ram (runOps s (ecpDoubleSwst a 20 17) ram) := runOps_kept (double_dest (by omega))
  have hnormalize : Kept s (runOps s (ecpDoubleSwst a 20 17) ram)
      (runOps s (ecpNormalizeSwst 24 20) (runOps s (ecpDoubleSwst a 20 17) ram)) :=
    runOps_kept (normalize_dest (by omega))
  have hmany := normalizeMany_kept hrest
  exact ((hdouble.trans hnormalize).trans oddMultiples_kept).trans hmany

theorem newTable_odd {res : Ram × Table} (h : Supported p grp) (hfits : Field.Fits p s prime)
    (hram : Prepared s p prime (grp.a.getD 0 : Nat) ram) (hpt : pt.Names q)
    (hpoint : HoldsPoint s ram 17 ⟨(pt.x : ZMod p), (pt.y : ZMod p), 1⟩)
    (hne : ∀ v : Nat, 0 < v → v < 16 → v • q ≠ 0) (hres : newTable heap grp.a s ram = .ok res) :
    OddTable s res.2 q := by
  have htwice : q + q ≠ 0 := by
    have htwo := hne 2 (by omega) (by omega)
    rwa [two_smul] at htwo
  have hcarries : Carries s ram 17 q := ⟨_, represents_affine hpt.coords, hpoint⟩
  have hdouble := double_carries hfits h.two_ne_zero hram (by omega) (show 16 ≤ 20 by omega) hcarries htwice
  have hkept : Kept s ram (runOps s (ecpDoubleSwst grp.a 20 17) ram) := runOps_kept (double_dest (by omega))
  have haffine := normalize_carries hfits (hram.kept hkept).loaded (by omega) (show 16 ≤ 24 by omega)
    (by omega) hdouble
  have hkept' : Kept s (runOps s (ecpDoubleSwst grp.a 20 17) ram)
      (runOps s (ecpNormalizeSwst 24 20) (runOps s (ecpDoubleSwst grp.a 20 17) ram)) :=
    runOps_kept (normalize_dest (by omega))
  have hstays : ∀ i, 17 ≤ i → i < 20 → pkaRead (runOps s (ecpNormalizeSwst 24 20)
      (runOps s (ecpDoubleSwst grp.a 20 17) ram)) ⟨s, i⟩ = pkaRead ram ⟨s, i⟩ := by
    intro i hlow hhigh
    refine (runOps_read ?_).trans (double_read (by omega) (by omega))
    simp [ecpNormalizeSwst, PkaOp.dest]
    omega
  unfold newTable at hres
  dsimp only at hres
  rw [runOps_append] at hres
  split at hres
  · cases hres
  rename_i rest hrest
  obtain rfl := Except.ok.inj hres
  have hready := hram.kept (hkept.trans hkept')
  generalize runOps s (ecpNormalizeSwst 24 20) (runOps s (ecpDoubleSwst grp.a 20 17) ram) = start at *
  rw [← two_smul Nat q] at haffine
  have hnone : ∀ l, l < 0 → Unscaled s
      (Function.update (fun _ => (0, 0)) 0 (pkaRead ram ⟨s, 17⟩, pkaRead ram ⟨s, 18⟩))
      (fun _ => 0) l q := fun l hl => absurd hl (Nat.not_lt_zero l)
  obtain ⟨hzero, hall⟩ := oddMultiples_unscaled (i := 0) (k := 7) hfits h.two_ne_zero hready
    (by
      rw [Nat.mul_zero, Nat.zero_add, one_smul]
      exact hcarries.congr fun j hlow hhigh => hstays j hlow (by omega))
    haffine (fun l hl => hne _ (by omega) (by omega)) hnone
  refine oddTable_of_parts hfits (oddMultiples_kept.loaded hready.loaded) ?_ (fun l hl => hall l (by omega)) hrest
  rw [hzero, Function.update_self]
  exact ⟨_, _, hpt.coords, hpoint.x.stored, hpoint.y.stored⟩

/-- A call gets the group's table, or one of its own with the odd multiples. -/
theorem ecpTable_odd {res : Except Int (Ram × Table) × Caches} (h : Supported p grp)
    (hfits : Field.Fits p s prime) (hram : Prepared s p prime (grp.a.getD 0 : Nat) ram)
    (hpt : pt.Names q) (hne : ∀ v : Nat, 0 < v → v < 16 → v • q ≠ 0)
    (hcached : ∀ t, caches.tableOf grp pt = some t → OddTable s t q)
    (hres : ecpTable heap grp s ram caches pt = res) :
    res.2.primeN = caches.primeN ∧
      (res.2.table = caches.table ∨
        pEqG grp pt = true ∧ ∃ t, res.2.table = some t ∧ OddTable s t q) ∧
      ∀ r, res.1 = .ok r → Kept s ram r.1 ∧ OddTable s r.2 q := by
  subst hres
  have hpoint := loadPoint_holds hfits hram hpt
  have hkept : Kept s ram (runOps s (loadPoint pt) ram) := loadPoint_kept
  unfold ecpTable
  dsimp only
  split
  · exact ⟨rfl, .inl rfl, fun r hok => by cases hok⟩
  split
  · exact ⟨rfl, .inl rfl, fun r hok => by cases hok⟩
  cases htable : caches.tableOf grp pt with
  | some t =>
    refine ⟨rfl, .inl rfl, fun r hok => ?_⟩
    obtain rfl := Except.ok.inj hok
    exact ⟨hkept, hcached t htable⟩
  | none =>
    dsimp only
    cases hnew : newTable heap grp.a s (runOps s (loadPoint pt) ram) with
    | error ret => exact ⟨rfl, .inl rfl, fun r hok => by cases hok⟩
    | ok new =>
      have hodd := newTable_odd h hfits (hram.kept hkept) hpt hpoint hne hnew
      refine ⟨?_, ?_, fun r hok => ?_⟩
      · dsimp only
        split <;> rfl
      · dsimp only
        split
        · rename_i hg
          exact .inr ⟨hg, _, rfl, hodd⟩
        · exact .inl rfl
      · obtain rfl := Except.ok.inj hok
        exact ⟨hkept.trans (newTable_kept hnew), hodd⟩

/-! ## One digit -/

variable {r : (curve (coefficient p grp.a) b).toAffine.Point} {t : Table} {d v v' : Int} {zero : Bool}

theorem loadEntry_carries {e : Nat × Nat} (hfits : Field.Fits p s prime) (hram : Loaded s p prime ram)
    (he : Entry s e r) : CarriesAffine s (runOps s [.regw 20 e.1, .regw 21 e.2] ram) 20 r := by
  obtain ⟨x, y, hcoords, hx, hy⟩ := he
  have hok : OpsOk p [] [.regw 20 e.1, .regw 21 e.2] := by
    simp [OpsOk, PkaOp.Ok, PkaOp.reads, PkaOp.dest, hx.1, hy.1]
  refine ⟨x, y, hcoords, ?_, ?_⟩
  · refine runOps_fresh hfits hram hok (by simp [PkaOp.dest]) ?_
    simp [evalOps_cons, evalOps_nil, PkaOp.dest, PkaOp.value, hx.value hfits]
  · refine runOps_fresh hfits hram hok (by simp [PkaOp.dest]) ?_
    simp [evalOps_cons, evalOps_nil, PkaOp.dest, PkaOp.value, hy.value hfits]

theorem negateEntry_carries (hfits : Field.Fits p s prime) (hram : Loaded s p prime ram)
    (hr : CarriesAffine s ram 20 r) : CarriesAffine s (runOps s [.negate 21 21] ram) 20 (-r) := by
  obtain ⟨x, y, hcoords, hholds⟩ := hr
  refine ⟨x, -y, hcoords.neg, hholds.x.congr (runOps_read (by simp [PkaOp.dest])), ?_⟩
  have hlive : ∀ j, j ∈ [21] → ∃ u : ZMod p, Holds s ram j u := by
    intro j hj
    rw [List.mem_singleton.mp hj]
    exact ⟨_, hholds.y⟩
  refine runOps_element hfits hram hlive ?_ (.inr (by simp [PkaOp.dest])) ?_
  · simp [OpsOk, PkaOp.Ok, PkaOp.reads, PkaOp.dest]
  · have hy := hholds.y.element_eq hfits
    simp [evalOps_cons, evalOps_nil, PkaOp.dest, PkaOp.value, hy]

/-- The first point becomes the result, with 1 for its third coordinate. -/
theorem firstPoint_carries (hfits : Field.Fits p s prime) (hwords : 0 < regWords s) {a : ZMod p}
    (hram : Prepared s p prime a ram) (hr : CarriesAffine s ram 20 r) :
    Carries s (runOps s [.mmul 19 19 2] (loadC s 19 1 (runOps s [.move 17 20, .move 18 21] ram))) 17 r := by
  obtain ⟨x, y, hcoords, hholds⟩ := hr
  have hone : 1 < p := (Fact.out : p.Prime).one_lt
  have hlive : ∀ j, j ∈ [20, 21] → ∃ u : ZMod p, Holds s ram j u := by
    simp only [List.mem_cons, List.not_mem_nil, or_false]
    rintro j (rfl | rfl)
    · exact ⟨_, hholds.x⟩
    · exact ⟨_, hholds.y⟩
  have hok : OpsOk p [20, 21] [.move 17 20, .move 18 21] := by
    simp [OpsOk, PkaOp.Ok, PkaOp.reads, PkaOp.dest]
  have hx : Holds s (runOps s [.move 17 20, .move 18 21] ram) 17 x := by
    refine runOps_element hfits hram.loaded hlive hok (.inr (by simp [PkaOp.dest])) ?_
    simp [evalOps_cons, evalOps_nil, PkaOp.dest, PkaOp.value, hholds.x.element_eq hfits]
  have hy : Holds s (runOps s [.move 17 20, .move 18 21] ram) 18 y := by
    have hval := hholds.y.element_eq hfits
    refine runOps_element hfits hram.loaded hlive hok (.inr (by simp [PkaOp.dest])) ?_
    simp [evalOps_cons, evalOps_nil, PkaOp.dest, PkaOp.value, hval]
  have hkept : Kept s ram (runOps s [.move 17 20, .move 18 21] ram) := runOps_kept (by simp [PkaOp.dest])
  have hready := hram.kept hkept
  generalize runOps s [.move 17 20, .move 18 21] ram = moved at *
  have hwrote := @loadC_wrote s 19 moved 1 hwords (by decide)
  have hthird : Holds s (loadC s 19 1 moved) 19 (radix p s)⁻¹ := by
    unfold Holds
    rw [hwrote.value, Nat.cast_one, inv_mul_cancel₀ hfits.radix_ne_zero]
    exact ⟨hone, rfl⟩
  have hscale : Holds s (loadC s 19 1 moved) 2 (radix p s) := hready.scale.congr (hwrote.others 2 (by omega))
  have hz : Holds s (runOps s [.mmul 19 19 2] (loadC s 19 1 moved)) 19 (1 : ZMod p) := by
    have hproduct := mmul_holds (d := 19) hfits (hwrote.loaded (by omega) hready.loaded) hthird hscale
    rwa [inv_mul_cancel₀ hfits.radix_ne_zero] at hproduct
  have hstays : ∀ i, i ≠ 19 → pkaRead (runOps s [.mmul 19 19 2] (loadC s 19 1 moved)) ⟨s, i⟩ =
      pkaRead moved ⟨s, i⟩ :=
    fun i hi => (runOps_read (by simpa [PkaOp.dest] using hi)).trans (hwrote.others i hi)
  exact ⟨⟨x, y, 1⟩, represents_affine hcoords, hx.congr (hstays 17 (by omega)),
    hy.congr (hstays 18 (by omega)), hz⟩

theorem mulDigit_kept {a : Option Nat} (hwords : 0 < regWords s) :
    Kept s ram (mulDigit a s t d zero ram).2 := by
  have hdouble : ∀ ram, Kept s ram (runOps s (ecpDoubleSwst a 17 17) ram) :=
    fun ram => runOps_kept (double_dest (by omega))
  have hstart : Kept s ram (if zero then ram else runOps s (ecpDoubleSwst a 17 17) ram) := by
    split
    · exact fun _ _ => rfl
    · exact hdouble ram
  unfold mulDigit
  dsimp only
  generalize (if zero then ram else runOps s (ecpDoubleSwst a 17 17) ram) = start at *
  by_cases hd : d = 0
  · rw [if_pos hd]
    exact hstart
  rw [if_neg hd]
  have hentry : Kept s start (runOps s [.regw 20 (t (d.natAbs / 2)).1, .regw 21 (t (d.natAbs / 2)).2]
      start) := runOps_kept (by simp [PkaOp.dest])
  generalize runOps s [.regw 20 (t (d.natAbs / 2)).1, .regw 21 (t (d.natAbs / 2)).2] start = loaded at *
  have hsigned : Kept s loaded (if d < 0 then runOps s [.negate 21 21] loaded else loaded) := by
    split
    · exact runOps_kept (by simp [PkaOp.dest])
    · exact fun _ _ => rfl
  generalize (if d < 0 then runOps s [.negate 21 21] loaded else loaded) = signed at *
  have hbefore := (hstart.trans hentry).trans hsigned
  cases zero with
  | true =>
    have hmove : Kept s signed (runOps s [.move 17 20, .move 18 21] signed) :=
      runOps_kept (by simp [PkaOp.dest])
    generalize runOps s [.move 17 20, .move 18 21] signed = moved at *
    have hload : Kept s moved (loadC s 19 1 moved) :=
      fun i hi => (loadC_wrote hwords (by decide)).others i (by omega)
    exact ((hbefore.trans hmove).trans hload).trans (runOps_kept (by simp [PkaOp.dest]))
  | false => exact hbefore.trans (addMixed_kept (by omega))

/-- The result is not there yet and the digits so far have the value 0, or it is the
multiple that they say. -/
def Reached (s : Nat) (ram : Ram) (zero : Bool) (q : (curve (coefficient p grp.a) b).toAffine.Point)
    (v : Int) : Prop :=
  (zero = true → v = 0) ∧ (zero = false → 0 < v ∧ Carries s ram 17 (v • q))

/-- The registers with the table's point for a digit. -/
def digitPoint (s : Nat) (t : Table) (d : Int) (ram : Ram) : Ram :=
  let ram := runOps s [.regw 20 (t (d.natAbs / 2)).1, .regw 21 (t (d.natAbs / 2)).2] ram
  if d < 0 then runOps s [.negate 21 21] ram else ram

theorem digitPoint_kept : Kept s ram (digitPoint s t d ram) := by
  unfold digitPoint
  dsimp only
  split
  · exact Kept.trans (runOps_kept (by simp [PkaOp.dest])) (runOps_kept (by simp [PkaOp.dest]))
  · exact runOps_kept (by simp [PkaOp.dest])

theorem digitPoint_read {i : Nat} (hi : i < 20) :
    pkaRead (digitPoint s t d ram) ⟨s, i⟩ = pkaRead ram ⟨s, i⟩ := by
  have hload : pkaRead (runOps s [.regw 20 (t (d.natAbs / 2)).1, .regw 21 (t (d.natAbs / 2)).2] ram)
      ⟨s, i⟩ = pkaRead ram ⟨s, i⟩ := by
    refine runOps_read ?_
    simp [PkaOp.dest]
    omega
  unfold digitPoint
  dsimp only
  split
  · refine (runOps_read ?_).trans hload
    simp [PkaOp.dest]
    omega
  · exact hload

theorem digitPoint_carries (hfits : Field.Fits p s prime) (hram : Loaded s p prime ram)
    (htable : OddTable s t q) (hodd : d % 2 = 1) (hlt : d.natAbs < 2 ^ (5 - 1)) :
    CarriesAffine s (digitPoint s t d ram) 20 (d • q) := by
  have hentry := htable (d.natAbs / 2) (by omega)
  have hindex : 2 * (d.natAbs / 2) + 1 = d.natAbs := by omega
  rw [hindex] at hentry
  have hload := loadEntry_carries hfits hram hentry
  have hkept : Kept s ram
      (runOps s [.regw 20 (t (d.natAbs / 2)).1, .regw 21 (t (d.natAbs / 2)).2] ram) :=
    runOps_kept (by simp [PkaOp.dest])
  unfold digitPoint
  dsimp only
  split
  · have hneg : d • q = -(d.natAbs • q) := by
      have hd : d = -(d.natAbs : Int) := by omega
      rw [hd, neg_smul, Int.natAbs_neg, Int.natAbs_natCast, natCast_zsmul]
    rw [hneg]
    exact negateEntry_carries hfits (hkept.loaded hram) hload
  · have hpos : d • q = d.natAbs • q := by
      have hd : d = (d.natAbs : Int) := by omega
      rw [hd, Int.natAbs_natCast, natCast_zsmul]
    rw [hpos]
    exact hload

theorem mulDigit_reached (h : Supported p grp) (hfits : Field.Fits p s prime) (hwords : 0 < regWords s)
    (hram : Prepared s p prime (grp.a.getD 0 : Nat) ram) (htable : OddTable s t q) (hd : Digit 5 d)
    (hv : v = d + 2 * v') (hnonneg : 0 ≤ v) (hsum : 0 < v → v • q ≠ 0)
    (hdouble : 0 < v' → (2 * v') • q ≠ 0) (hreached : Reached s ram zero q v') :
    Reached s (mulDigit grp.a s t d zero ram).2 (mulDigit grp.a s t d zero ram).1 q v := by
  cases zero with
  | true =>
    have hzero := hreached.1 rfl
    by_cases hd0 : d = 0
    · unfold mulDigit
      rw [if_pos hd0]
      exact ⟨fun _ => by omega, fun hfalse => Bool.noConfusion (show true = false from hfalse)⟩
    · obtain ⟨hodd, hlt⟩ := hd.resolve_left hd0
      have hpoint := digitPoint_carries (d := d) hfits hram.loaded htable hodd hlt
      have hready := hram.kept (@digitPoint_kept s ram t d)
      have hvd : v = d := by omega
      unfold mulDigit
      rw [if_neg hd0]
      refine ⟨fun hfalse => Bool.noConfusion (show false = true from hfalse), fun _ => ⟨by omega, ?_⟩⟩
      rw [hvd]
      exact firstPoint_carries hfits hwords hready hpoint
  | false =>
    obtain ⟨hpos, hcarries⟩ := hreached.2 rfl
    have htwice : v' • q + v' • q = (2 * v') • q := by
      rw [← add_zsmul]
      congr 1
      ring
    have hdoubled := double_carries hfits h.two_ne_zero hram (by omega) (show 16 ≤ 17 by omega) hcarries
      (by rw [htwice]; exact hdouble hpos)
    rw [htwice] at hdoubled
    have hkept : Kept s ram (runOps s (ecpDoubleSwst grp.a 17 17) ram) := runOps_kept (double_dest (by omega))
    have hready := hram.kept hkept
    by_cases hd0 : d = 0
    · have hvv : v = 2 * v' := by omega
      unfold mulDigit
      rw [if_pos hd0]
      refine ⟨fun hfalse => Bool.noConfusion (show false = true from hfalse), fun _ => ⟨by omega, ?_⟩⟩
      rw [hvv]
      exact hdoubled
    · obtain ⟨hodd, hlt⟩ := hd.resolve_left hd0
      have hvpos : 0 < v := by omega
      have hpoint := digitPoint_carries (d := d) hfits hready.loaded htable hodd hlt
      have hready' := hready.kept (@digitPoint_kept s _ t d)
      have hother := hdoubled.congr fun j _ hj =>
        @digitPoint_read s (runOps s (ecpDoubleSwst grp.a 17 17) ram) t d j (by omega)
      have htotal : (2 * v') • q + d • q = v • q := by
        rw [← add_zsmul, hv]
        congr 1
        ring
      have hadd := addMixed_carries hfits h.two_ne_zero hready' (by omega) (by omega) (show 16 ≤ 17 by omega)
        hother hpoint (by rw [htotal]; exact hsum hvpos)
      rw [htotal] at hadd
      unfold mulDigit
      rw [if_neg hd0]
      exact ⟨fun hfalse => Bool.noConfusion (show false = true from hfalse), fun _ => ⟨hvpos, hadd.2⟩⟩

/-! ## All digits -/

theorem mulDigits_kept {a : Option Nat} {digits : Nat → Int} {len k : Nat} (hwords : 0 < regWords s) :
    Kept s ram (mulDigits a s t digits len ram k).2 := by
  induction k with
  | zero => exact fun _ _ => rfl
  | succ k ih => exact ih.trans (mulDigit_kept hwords)

/-- The values of the digits from each place on stay below a bound above 15. -/
theorem Encoding.Trimmed.valueFrom_lt {st : Encoding} {bound : Int} (hst : st.Trimmed)
    (hdigit : ∀ i, Digit 5 (st.output i)) (hbound : 15 < bound) (hlt : st.valueFrom 0 < bound) (k : Nat) :
    st.valueFrom k < bound := by
  induction k with
  | zero => exact hlt
  | succ k ih =>
    have hstep := hst.valueFrom_step k
    rcases hdigit k with hzero | ⟨-, hsmall⟩ <;> omega

/-- After each digit the registers hold the multiple that the digits so far say. -/
theorem mulDigits_reached {st : Encoding} {len k : Nat} (h : Supported p grp)
    (hfits : Field.Fits p s prime) (hwords : 0 < regWords s)
    (hram : Prepared s p prime (grp.a.getD 0 : Nat) ram) (htable : OddTable s t q) (hst : st.Trimmed)
    (hdigit : ∀ i, Digit 5 (st.output i)) (hnonneg : ∀ i, 0 ≤ st.valueFrom i)
    (hne : ∀ i, 0 < st.valueFrom i → st.valueFrom i • q ≠ 0 ∧ (2 * st.valueFrom i) • q ≠ 0)
    (hlen : st.outputLen ≤ len) (hk : k ≤ len) :
    Reached s (mulDigits grp.a s t st.output len ram k).2 (mulDigits grp.a s t st.output len ram k).1 q
      (st.valueFrom (len - k)) := by
  induction k with
  | zero => exact ⟨fun _ => Encoding.valueFrom_end hlen, fun hfalse => Bool.noConfusion (show true = false from hfalse)⟩
  | succ k ih =>
    have hplace : len - (k + 1) + 1 = len - k := by omega
    have hplace' : len - 1 - k = len - (k + 1) := by omega
    have hstep := hst.valueFrom_step (len - (k + 1))
    rw [hplace] at hstep
    have hkept := @mulDigits_kept s ram t grp.a st.output len k hwords
    unfold mulDigits
    dsimp only
    rw [hplace']
    exact mulDigit_reached h hfits hwords (hram.kept hkept) htable (hdigit _) hstep (hnonneg _)
      (fun hpos => (hne _ hpos).1) (fun hpos => (hne _ hpos).2) (ih (by omega))

end

end BouffaloSdk.Ecp
