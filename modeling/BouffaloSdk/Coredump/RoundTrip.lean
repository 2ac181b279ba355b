import BouffaloSdk.Coredump.EncoderV2
import BouffaloSdk.Kit.SRecord

/-!
# The text core dump read back

Every line that the encoder prints is a valid S-record, and a loader that reads
the whole text gets the bytes of the region in order. The loop over kilobyte
segments ends only where its counter, in bytes, can pass the length.
-/

namespace BouffaloSdk.Coredump
open Kit Kit.Word Kit.SRecord

theorem printf02X_eq : ∀ n < 256, printf02X n = [Hex.digit (n / 16), Hex.digit (n % 16)] := by
  decide +kernel

theorem printf02X_byte (b : UInt8) : printf02X b.toNat = Hex.byte b :=
  printf02X_eq _ b.toNat_lt

def addrBytes (addr : Nat) : List UInt8 :=
  (List.range 4).map fun i => UInt8.ofNat (addr / 2 ^ (8 * (3 - i)) % 256)

/-- The fields of a record line. -/
def recordBytes (line : List UInt8) (addr : Nat) : List UInt8 :=
  UInt8.ofNat (line.length + 5) :: (addrBytes addr ++ line ++
    [~~~(line.sum + (addrBytes addr).sum + UInt8.ofNat (line.length + 5))])

theorem srecLine_eq {line : List UInt8} (h : line.length < 251) (addr : Nat) :
    srecLine line addr = 'S' :: '3' :: Hex.encode (recordBytes line addr) ++ ['\r', '\n'] := by
  have hcount : printf02X (line.length + 5) = Hex.byte (UInt8.ofNat (line.length + 5)) := by
    rw [← printf02X_byte, UInt8.toNat_ofNat_of_lt' (by simp only [UInt8.size]; omega)]
  unfold srecLine
  simp only [printf02X_byte, hcount, recordBytes, Hex.encode, addrBytes, List.flatMap_cons,
    List.flatMap_append, List.flatMap_nil, List.append_nil, List.cons_append, List.nil_append,
    List.append_assoc]

theorem sum_with_checksum (s : UInt8) : s + ~~~s = 0xFF := by
  apply UInt8.eq_of_toBitVec_eq
  exact BitVec.add_not_self s.toBitVec

theorem addrBytes_value (addr : Nat) :
    ∃ a b c d, addrBytes addr = [a, b, c, d] ∧
      a.toNat * 2 ^ 24 + b.toNat * 2 ^ 16 + c.toNat * 2 ^ 8 + d.toNat = addr % 2 ^ 32 := by
  refine ⟨_, _, _, _, rfl, ?_⟩
  simp
  omega

theorem sum_recordBytes (line : List UInt8) (addr : Nat) : (recordBytes line addr).sum = 0xFF := by
  unfold recordBytes
  generalize hs : line.sum + (addrBytes addr).sum + UInt8.ofNat (line.length + 5) = s
  have hall : UInt8.ofNat (line.length + 5) + ((addrBytes addr).sum + line.sum + (~~~s + 0)) =
      s + ~~~s := by
    rw [← hs, UInt8.add_zero]
    ac_rfl
  rw [List.sum_cons, List.sum_append, List.sum_append, List.sum_cons, List.sum_nil, hall,
    sum_with_checksum]

theorem ofBytes_recordBytes {line : List UInt8} (h : line.length < 251) (addr : Nat) :
    ofBytes (recordBytes line addr) = some ⟨addr % 2 ^ 32, line⟩ := by
  have hsum := sum_recordBytes line addr
  obtain ⟨a, b, c, d, hbytes, hvalue⟩ := addrBytes_value addr
  unfold recordBytes at hsum ⊢
  rw [hbytes] at hsum ⊢
  have hcount : (UInt8.ofNat (line.length + 5)).toNat = line.length + 5 :=
    UInt8.toNat_ofNat_of_lt' (by simp only [UInt8.size]; omega)
  exact (ofBytes_of_valid hcount hsum).trans (by rw [hvalue])

/-- A printed line loads the bytes that it was made from. -/
theorem load_srecLine_append {line : List UInt8} (h : line.length < 251) (addr : Nat)
    {rest : List Char} {ys : List (Nat × UInt8)} (hrest : load rest = some ys) :
    load (srecLine line addr ++ rest) = some (Record.cells ⟨addr % 2 ^ 32, line⟩ ++ ys) := by
  have hline := load_line (ofBytes_recordBytes h addr)
  have hnext : load ([] ++ '\n' :: rest) = some ([] ++ ys) := load_append rfl load_nil hrest
  rw [srecLine_eq h, List.append_assoc]
  exact load_append rfl hline hnext

/-- The bytes that `len` cells of memory from `lma` on put at `addr` and up. -/
def region (mem : Nat → UInt8) (addr lma len : Nat) : List (Nat × UInt8) :=
  (List.range len).map fun i => (add32 addr i, mem (add32 lma i))

theorem region_add (mem : Nat → UInt8) (addr lma m n : Nat) :
    region mem addr lma (m + n) =
      region mem addr lma m ++ region mem (add32 addr m) (add32 lma m) n := by
  unfold region
  rw [List.range_add, List.map_append, List.map_map]
  simp only [Function.comp_def, add32_assoc]

theorem cells_eq_region (mem : Nat → UInt8) (addr lma n : Nat) :
    Record.cells ⟨addr % 2 ^ 32, (List.range n).map fun i => mem (add32 lma i)⟩ =
      region mem addr lma n := by
  apply List.ext_getElem?
  intro i
  have haddr : add32 (addr % 2 ^ 32) i = add32 addr i := by
    unfold add32
    rw [Nat.mod_add_mod]
  simp only [Record.cells, region, List.getElem?_mapIdx, List.getElem?_map, haddr]
  rcases Nat.lt_or_ge i n with hi | hi
  · rw [List.getElem?_range hi]
    rfl
  · rw [List.getElem?_eq_none (by rw [List.length_range]; exact hi)]
    rfl

theorem load_srecEncode_append (mem : Nat → UInt8) (data dataLength addr : Nat) {rest : List Char}
    {ys : List (Nat × UInt8)} (hrest : load rest = some ys) :
    load (srecEncode mem data dataLength addr ++ rest) =
      some (region mem addr data dataLength ++ ys) := by
  fun_induction srecEncode mem data dataLength addr with
  | case1 data n addr hpos k line ih =>
    have hk : k ≤ n ∧ k < 251 := by grind [maxDataLength, maxLineLength]
    have hline : line.length < 251 := by
      rw [List.length_map, List.length_range]
      exact hk.2
    have hregion : region mem addr data n =
        Record.cells ⟨addr % 2 ^ 32, line⟩ ++ region mem (add32 addr k) (add32 data k) (n - k) := by
      rw [cells_eq_region, ← region_add, Nat.add_sub_cancel' hk.1]
    rw [hregion, List.append_assoc, List.append_assoc]
    exact load_srecLine_append hline addr ih
  | case2 data n addr hzero =>
    have hn : n = 0 := by omega
    rw [hn]
    exact hrest

theorem load_coredumpStartStr : load coredumpStartStr = some [] := by
  decide

theorem load_coredumpPrint_append (mem : Nat → UInt8) (init : Bool) (addr lma len : Nat)
    {rest : List Char} {ys : List (Nat × UInt8)} (hrest : load rest = some ys) :
    load ((coredumpPrint mem init addr lma len).1 ++ rest) =
      some (region mem addr lma len ++ ys) := by
  have hrecords := load_srecEncode_append mem lma len addr hrest
  cases init with
  | true => exact hrecords
  | false =>
    have hstart := load_append (rfl : isEol '\n' = true) load_coredumpStartStr hrecords
    simpa only [coredumpPrint, Bool.false_eq_true, if_false, List.append_assoc, List.cons_append,
      List.nil_append] using hstart

/-! ## The loop over segments -/

variable {mem : Nat → UInt8} {addr lma len : Nat}

theorem next_segment_fits {seg : Nat} (h : seg < 4194303) : (seg + 1) * 1024 < 2 ^ 32 := by
  omega

theorem coredumpPrintNKFrom_more {fuel seg : Nat} {init : Bool} (hseg : seg * 1024 < 2 ^ 32)
    (hmore : seg * 1024 < len) :
    coredumpPrintNKFrom mem addr lma len (fuel + 1) init seg =
      (coredumpPrintNKFrom mem addr lma len fuel true (add32 seg 1)).map fun r =>
        ((coredumpPrint mem init (add32 addr (seg * 1024)) (add32 lma (seg * 1024))
          (if sub32 len (seg * 1024) ≥ 1024 then 1024 else sub32 len (seg * 1024))).1 ++ r.1,
          r.2) := by
  have hprinted : mul32 seg (coredumpPrintSegNK * 1024) = seg * 1024 := mul32_eq hseg
  rw [coredumpPrintNKFrom, hprinted, if_pos hmore]
  rfl

/-- Below the last kilobyte of the 32-bit range the counter passes every length. -/
theorem load_coredumpPrintNKFrom (hlen : len ≤ 2 ^ 32 - 1024) (n seg : Nat) (init : Bool)
    (hseg : seg * 1024 < 2 ^ 32) (hend : len ≤ (seg + n) * 1024) :
    ∃ text init', coredumpPrintNKFrom mem addr lma len (n + 1) init seg = some (text, init') ∧
      load text = some (region mem (add32 addr (seg * 1024)) (add32 lma (seg * 1024))
        (len - seg * 1024)) := by
  induction n generalizing seg init with
  | zero =>
    have hprinted : mul32 seg (coredumpPrintSegNK * 1024) = seg * 1024 := mul32_eq hseg
    have hnone : len - seg * 1024 = 0 := by omega
    refine ⟨[], init, ?_, ?_⟩
    · rw [coredumpPrintNKFrom, hprinted, if_neg (by omega)]
    · rw [hnone]
      rfl
  | succ n ih =>
    have hprinted : mul32 seg (coredumpPrintSegNK * 1024) = seg * 1024 := mul32_eq hseg
    by_cases hmore : seg * 1024 < len
    · have hseg' : (seg + 1) * 1024 < 2 ^ 32 :=
        next_segment_fits (Nat.lt_of_mul_lt_mul_right (Nat.lt_of_lt_of_le hmore hlen))
      have hend' : len ≤ (seg + 1 + n) * 1024 := by
        rw [Nat.add_assoc, Nat.add_comm 1 n]
        exact hend
      have hnext : add32 seg 1 = seg + 1 := add32_eq (by omega)
      have hsub : sub32 len (seg * 1024) = len - seg * 1024 := sub32_eq (by omega) (by omega)
      obtain ⟨rest, init', hrun, hload⟩ := ih (seg + 1) true hseg' hend'
      have hregion : region mem (add32 addr (seg * 1024)) (add32 lma (seg * 1024))
            (if len - seg * 1024 ≥ 1024 then 1024 else len - seg * 1024) ++
          region mem (add32 addr ((seg + 1) * 1024)) (add32 lma ((seg + 1) * 1024))
            (len - (seg + 1) * 1024) =
          region mem (add32 addr (seg * 1024)) (add32 lma (seg * 1024)) (len - seg * 1024) := by
        split
        · have hlen' : len - seg * 1024 = 1024 + (len - (seg + 1) * 1024) := by omega
          rw [hlen', region_add, add32_assoc, add32_assoc, Nat.add_mul, Nat.one_mul]
        · have hdone : len - (seg + 1) * 1024 = 0 := by omega
          rw [hdone]
          exact List.append_nil _
      refine ⟨(coredumpPrint mem init (add32 addr (seg * 1024)) (add32 lma (seg * 1024))
        (if len - seg * 1024 ≥ 1024 then 1024 else len - seg * 1024)).1 ++ rest, init', ?_, ?_⟩
      · rw [coredumpPrintNKFrom_more hseg hmore, hsub, hnext, hrun, Option.map_some]
      · rw [← hregion]
        exact load_coredumpPrint_append mem init _ _ _ hload
    · have hnone : len - seg * 1024 = 0 := by omega
      refine ⟨[], init, ?_, ?_⟩
      · rw [coredumpPrintNKFrom, hprinted, if_neg hmore]
      · rw [hnone]
        rfl

/-- Past it the counter wraps before it passes the length, and the loop starts over. -/
theorem coredumpPrintNKFrom_eq_none (hlen : 2 ^ 32 - 1024 < len) (fuel : Nat) (init : Bool)
    (seg : Nat) : coredumpPrintNKFrom mem addr lma len fuel init seg = none := by
  induction fuel generalizing init seg with
  | zero => rfl
  | succ fuel ih =>
    have hprinted : mul32 seg (coredumpPrintSegNK * 1024) < len := by
      unfold mul32 coredumpPrintSegNK
      omega
    rw [coredumpPrintNKFrom]
    simp only [if_pos hprinted, ih, Option.map_none]

/-- The call ends, and its text loads the bytes of the region at their
addresses, in order and each once. -/
def RoundTrips (mem : Nat → UInt8) (init : Bool) (addr lma len : Nat) : Prop :=
  ∃ fuel text init', coredumpPrintNK mem fuel init addr lma len = some (text, init') ∧
    load text = some (region mem addr lma len)

/-- A region is printed and read back exactly if its length leaves a kilobyte
of the 32-bit range free. -/
theorem roundTrips_iff (mem : Nat → UInt8) (init : Bool) (addr lma len : Nat) :
    RoundTrips mem init addr lma len ↔ len ≤ 2 ^ 32 - 1024 := by
  constructor
  · rintro ⟨fuel, text, init', hrun, -⟩
    by_contra hlong
    rw [coredumpPrintNK, coredumpPrintNKFrom_eq_none (by omega)] at hrun
    cases hrun
  · intro hlen
    obtain ⟨text, init', hrun, hload⟩ := @load_coredumpPrintNKFrom mem addr lma len
      hlen len 0 init (by omega) (by omega)
    refine ⟨len + 1, text, init', hrun, ?_⟩
    rw [hload, Nat.zero_mul, Nat.sub_zero]
    simp only [region, add32_assoc, Nat.zero_add]

/-- The whole address space is printed for ever. -/
theorem whole_space_not_roundTrips : ¬ RoundTrips (fun _ => 0) false 0 0 (2 ^ 32 - 1) := by
  rintro ⟨fuel, text, init', hrun, -⟩
  rw [coredumpPrintNK, coredumpPrintNKFrom_eq_none (by omega)] at hrun
  cases hrun

end BouffaloSdk.Coredump
