import BouffaloSdk.Kit.LittleEndian

/-!
# Records of the RF parameters

`drivers/rfparam/Src/rfparam_rftlv.c`. Behind two magic words of 8 bytes the partition holds
records of a type, a length and a value, up to one of type 0. `mem` is what lies from
`tlv_addr` on, the partition first.
-/

namespace BouffaloSdk.RfTlv
open Kit

def sizeHead1 : Nat := 8
def sizeHead : Nat := 16
def sizeType : Nat := 2
def sizeLength : Nat := 2
def sizeTl : Nat := sizeType + sizeLength
def sizePartion : Nat := 2048

def typeMagicFwHead1 : Nat := 0x4152415046524C42
def typeMagicFwHead2 : Nat := 0x6B3162586B44364F
def typeInvalid : Nat := 0

def get (mem : Nat → UInt8) (i n : Nat) : List UInt8 := (List.range n).map fun k => mem (i + k)

def word (mem : Nat → UInt8) (i n : Nat) : Nat := ofLE (get mem i n)

def rfparamTlvValid (mem : Nat → UInt8) : Bool :=
  word mem 0 8 = typeMagicFwHead1 ∧ word mem sizeHead1 8 = typeMagicFwHead2

/-- Type and length of a record whose header is at `off`. -/
def typeAt (mem : Nat → UInt8) (off : Nat) : Nat := word mem off sizeType
def lengthAt (mem : Nat → UInt8) (off : Nat) : Nat := word mem (off + sizeType) sizeLength

/-- What a call returns, what it leaves in `value`, and what it read: start and size. -/
structure Outcome where
  ret : Int
  value : List UInt8
  reads : List (Nat × Nat)
  deriving DecidableEq, Repr

/-- The loop from `off` on, behind `tlv_addr`; `fuel` is the turns left to it. -/
def walk (mem : Nat → UInt8) (type valueLen : Nat) : Nat → Nat → List (Nat × Nat) → Option Outcome
  | 0, _, _ => none
  | fuel + 1, off, reads =>
    if off ≥ sizePartion - sizeTl then some ⟨-1, List.replicate valueLen 0, reads⟩
    else
      let typeTmp := typeAt mem off
      let lengthTmp := lengthAt mem off
      let reads := reads ++ [(off, sizeType), (off + sizeType, sizeLength)]
      if typeTmp = typeInvalid then some ⟨-1, List.replicate valueLen 0, reads⟩
      else if typeTmp ≠ type then walk mem type valueLen fuel (off + (sizeTl + lengthTmp)) reads
      else if lengthTmp > valueLen then some ⟨0, List.replicate valueLen 0, reads⟩
      else
        some
          { ret := 1
            value := get mem (off + sizeTl) lengthTmp ++
              (List.replicate valueLen 0).drop lengthTmp
            reads := reads ++ [(off + sizeTl, lengthTmp)] }

/-- `value` is what the destination held, `none` a walk that does not end. -/
def rfparamTlvGet (mem : Nat → UInt8) (type : Nat) (value : List UInt8) : Option Outcome :=
  let reads := [(0, 8), (sizeHead1, 8)]
  if rfparamTlvValid mem = false then some ⟨-1, value, reads⟩
  else if type = typeInvalid then some ⟨-1, List.replicate value.length 0, reads⟩
  else walk mem type value.length sizePartion sizeHead reads

/-! ## Records -/

/-- The records from `off` on lead to one at the second offset, all before it being of other
types and none the end marker. -/
inductive Leads (mem : Nat → UInt8) (type : Nat) : Nat → Nat → Prop
  | here (off : Nat) : Leads mem type off off
  | skip {off dest : Nat} (inside : off + sizeTl ≤ sizePartion)
      (marker : typeAt mem off ≠ typeInvalid) (other : typeAt mem off ≠ type)
      (rest : Leads mem type (off + sizeTl + lengthAt mem off) dest) : Leads mem type off dest

/-- The first record of a type, with its header inside the partition. -/
structure First (mem : Nat → UInt8) (type off : Nat) : Prop where
  leads : Leads mem type sizeHead off
  inside : off + sizeTl ≤ sizePartion
  same : typeAt mem off = type
  valid : type ≠ typeInvalid

/-- The record at `off` lies inside the partition and has room in `valueLen` bytes. -/
def Fits (mem : Nat → UInt8) (valueLen off : Nat) : Prop :=
  off + sizeTl + lengthAt mem off ≤ sizePartion ∧ lengthAt mem off ≤ valueLen

/-- Only the partition is read, and 1 is returned, with the value and zeros behind it, when
the first record of the type fits; else nothing positive is. -/
structure Exact (mem : Nat → UInt8) (type valueLen : Nat) (r : Outcome) : Prop where
  inside : ∀ read ∈ r.reads, read.1 + read.2 ≤ sizePartion
  found : r.ret = 1 ↔ ∃ off, First mem type off ∧ Fits mem valueLen off
  value : ∀ off, First mem type off → Fits mem valueLen off →
    r.value = get mem (off + sizeTl) (lengthAt mem off) ++
      List.replicate (valueLen - lengthAt mem off) 0
  other : r.ret ≠ 1 → r.ret ≤ 0

/-- A first record that is short enough for the destination ends in the partition, unless its
header is the end of the partition; there it is not empty. -/
def Within (mem : Nat → UInt8) (type valueLen : Nat) : Prop :=
  ∀ off, First mem type off → lengthAt mem off ≤ valueLen →
    (off + sizeTl < sizePartion ↔ off + sizeTl + lengthAt mem off ≤ sizePartion)

/-! ## The walk -/

section Walk
variable {mem : Nat → UInt8} {type valueLen fuel off dest : Nat} {reads : List (Nat × Nat)}

theorem Leads.eq_of_same (h : Leads mem type off dest) (hoff : typeAt mem off = type) :
    dest = off := by
  cases h with
  | here => rfl
  | skip _ _ other _ => exact absurd hoff other

theorem Leads.le (h : Leads mem type off dest) : off ≤ dest := by
  induction h with
  | here off => exact Nat.le_refl off
  | skip _ _ _ _ ih => omega

theorem Leads.unique {a b : Nat} (ha : Leads mem type off a) (hb : Leads mem type off b)
    (hsame : typeAt mem a = type) (hsame' : typeAt mem b = type) : a = b := by
  induction ha with
  | here off => exact (hb.eq_of_same hsame).symm
  | skip inside marker other rest ih =>
    cases hb with
    | here => exact absurd hsame' other
    | skip _ _ _ rest' => exact ih rest' hsame

theorem First.unique {a b : Nat} (ha : First mem type a) (hb : First mem type b) : a = b :=
  ha.leads.unique hb.leads ha.same hb.same

def ReadsInside (reads : List (Nat × Nat)) : Prop := ∀ read ∈ reads, read.1 + read.2 ≤ sizePartion

instance : Decidable (ReadsInside reads) :=
  inferInstanceAs (Decidable (∀ read ∈ reads, read.1 + read.2 ≤ sizePartion))

theorem readsInside_append {more : List (Nat × Nat)} :
    ReadsInside (reads ++ more) ↔ ReadsInside reads ∧ ReadsInside more :=
  List.forall_mem_append

/-- How a walk from `off` ends. A record whose header is the end of the partition is not
looked at. -/
inductive Ends (mem : Nat → UInt8) (type valueLen off : Nat) (r : Outcome) : Prop
  | missing (ret : r.ret = -1) (inside : ReadsInside r.reads)
      (none : ∀ dest, Leads mem type off dest → dest + sizeTl ≤ sizePartion →
        typeAt mem dest = type → dest + sizeTl = sizePartion)
  | long (dest : Nat) (ret : r.ret = 0) (inside : ReadsInside r.reads)
      (leads : Leads mem type off dest) (header : dest + sizeTl < sizePartion)
      (same : typeAt mem dest = type) (size : valueLen < lengthAt mem dest)
  | found (dest : Nat) (ret : r.ret = 1) (leads : Leads mem type off dest)
      (header : dest + sizeTl < sizePartion) (same : typeAt mem dest = type)
      (size : lengthAt mem dest ≤ valueLen)
      (inside : ReadsInside r.reads ↔ dest + sizeTl + lengthAt mem dest ≤ sizePartion)
      (value : r.value = get mem (dest + sizeTl) (lengthAt mem dest) ++
        List.replicate (valueLen - lengthAt mem dest) 0)

theorem Ends.skip {r : Outcome} (inside : off + sizeTl ≤ sizePartion)
    (marker : typeAt mem off ≠ typeInvalid) (other : typeAt mem off ≠ type)
    (h : Ends mem type valueLen (off + sizeTl + lengthAt mem off) r) :
    Ends mem type valueLen off r := by
  cases h with
  | missing ret hinside hnone =>
    refine .missing ret hinside fun dest hlead hdest hsame => ?_
    cases hlead with
    | here => exact absurd hsame other
    | skip _ _ _ rest => exact hnone dest rest hdest hsame
  | long dest ret hinside hlead header same size =>
    exact .long dest ret hinside (.skip inside marker other hlead) header same size
  | found dest ret hlead header same size hinside value =>
    exact .found dest ret (.skip inside marker other hlead) header same size hinside value

/-- A walk with a turn for each byte that is left ends. -/
theorem walk_ends (hvalid : type ≠ typeInvalid) (hpos : 0 < fuel) (hfuel : sizePartion ≤ off + fuel)
    (hreads : ReadsInside reads) :
    ∃ r, walk mem type valueLen fuel off reads = some r ∧ Ends mem type valueLen off r := by
  have hsizes : sizePartion = 2048 ∧ sizeTl = 4 ∧ sizeType = 2 ∧ sizeLength = 2 :=
    ⟨rfl, rfl, rfl, rfl⟩
  induction fuel generalizing off reads with
  | zero => exact absurd hpos (Nat.lt_irrefl 0)
  | succ fuel ih =>
    unfold walk
    by_cases hoff : off ≥ sizePartion - sizeTl
    · rw [if_pos hoff]
      refine ⟨_, rfl, .missing rfl hreads fun dest hlead hdest hsame => ?_⟩
      cases hlead with
      | here => omega
      | skip inside _ _ rest =>
        have hle := rest.le
        omega
    rw [if_neg hoff]
    dsimp only
    have hheader : ReadsInside (reads ++ [(off, sizeType), (off + sizeType, sizeLength)]) := by
      refine readsInside_append.2 ⟨hreads, ?_⟩
      simp only [ReadsInside, List.mem_cons, List.not_mem_nil, or_false, forall_eq_or_imp, forall_eq]
      omega
    by_cases hmarker : typeAt mem off = typeInvalid
    · rw [if_pos hmarker]
      refine ⟨_, rfl, .missing rfl hheader fun dest hlead _ hsame => ?_⟩
      cases hlead with
      | here => exact absurd (hsame.symm.trans hmarker) hvalid
      | skip _ marker _ _ => exact absurd hmarker marker
    rw [if_neg hmarker]
    by_cases hother : typeAt mem off ≠ type
    · rw [if_pos hother, ← Nat.add_assoc]
      have hnext : sizePartion ≤ off + sizeTl + lengthAt mem off + fuel := by omega
      obtain ⟨r, hr, hends⟩ := ih (by omega) hnext hheader
      exact ⟨r, hr, hends.skip (by omega) hmarker hother⟩
    rw [if_neg hother]
    have hsame := not_not.1 hother
    by_cases hlong : lengthAt mem off > valueLen
    · rw [if_pos hlong]
      exact ⟨_, rfl, .long off rfl hheader (.here off) (by omega) hsame hlong⟩
    · rw [if_neg hlong]
      refine ⟨_, rfl, .found off rfl (.here off) (by omega) hsame (by omega) ?_ ?_⟩
      · refine readsInside_append.trans ⟨fun h => ?_, fun h => ⟨hheader, ?_⟩⟩
        · exact h.2 _ (List.mem_singleton_self _)
        · intro read hread
          rwa [List.mem_singleton.1 hread]
      · exact congrArg _ (List.drop_replicate ..)

/-! ## The lookup -/

/-- How a walk ends tells whether it was exact. -/
theorem Ends.exact_iff {r : Outcome} (hvalid : type ≠ typeInvalid)
    (h : Ends mem type valueLen sizeHead r) :
    Exact mem type valueLen r ↔ Within mem type valueLen := by
  cases h with
  | missing ret inside none =>
    have hlast : ∀ off, First mem type off → off + sizeTl = sizePartion :=
      fun off hfirst => none off hfirst.leads hfirst.inside hfirst.same
    have hne : r.ret ≠ 1 := by omega
    constructor
    · intro hexact off hfirst hsize
      have hend := hlast off hfirst
      have hnot : ¬ off + sizeTl + lengthAt mem off ≤ sizePartion :=
        fun hfits => hne (hexact.found.2 ⟨off, hfirst, hfits, hsize⟩)
      omega
    · intro hwithin
      have hnot : ¬ ∃ off, First mem type off ∧ Fits mem valueLen off := by
        rintro ⟨off, hfirst, hfits, hsize⟩
        have hend := hlast off hfirst
        have hheader := (hwithin off hfirst hsize).2 hfits
        omega
      exact ⟨inside, iff_of_false hne hnot, fun off hfirst hfits => absurd ⟨off, hfirst, hfits⟩ hnot,
        fun _ => by omega⟩
  | long dest ret inside leads header same size =>
    have hfirst : First mem type dest := ⟨leads, header.le, same, hvalid⟩
    have hnot : ¬ ∃ off, First mem type off ∧ Fits mem valueLen off := by
      rintro ⟨off, hoff, -, hsize⟩
      rw [hoff.unique hfirst] at hsize
      omega
    refine iff_of_true ⟨inside, iff_of_false (by omega) hnot,
      fun off hoff hfits => absurd ⟨off, hoff, hfits⟩ hnot, fun _ => by omega⟩ ?_
    intro off hoff hsize
    rw [hoff.unique hfirst] at hsize
    omega
  | found dest ret leads header same size inside value =>
    have hfirst : First mem type dest := ⟨leads, header.le, same, hvalid⟩
    constructor
    · intro hexact off hoff _
      rw [hoff.unique hfirst]
      exact iff_of_true header (inside.1 hexact.inside)
    · intro hwithin
      have hfits := (hwithin dest hfirst size).1 header
      refine ⟨inside.2 hfits, iff_of_true ret ⟨dest, hfirst, hfits, size⟩, fun off hoff _ => ?_,
        fun hne => absurd ret hne⟩
      rw [hoff.unique hfirst]
      exact value

/-- A lookup in a partition with a valid header ends, and it is exact where the first record
of the type lies within the partition. -/
theorem tlv_get_exact_iff (mem : Nat → UInt8) (type : Nat) (value : List UInt8)
    (hheader : rfparamTlvValid mem = true) :
    ∃ r, rfparamTlvGet mem type value = some r ∧
      (Exact mem type value.length r ↔ Within mem type value.length) := by
  have hreads : ReadsInside [(0, 8), (sizeHead1, 8)] := by decide
  unfold rfparamTlvGet
  dsimp only
  rw [if_neg (by rw [hheader]; exact Bool.noConfusion)]
  by_cases hvalid : type = typeInvalid
  · rw [if_pos hvalid]
    have hnot : ∀ off, ¬ First mem type off := fun off hfirst => hfirst.valid hvalid
    refine ⟨_, rfl, iff_of_true ⟨hreads, iff_of_false (show (-1 : Int) ≠ 1 by decide) ?_,
      fun off hfirst _ => absurd hfirst (hnot off), fun _ => show (-1 : Int) ≤ 0 by decide⟩
      fun off hfirst => absurd hfirst (hnot off)⟩
    rintro ⟨off, hfirst, -⟩
    exact hnot off hfirst
  · rw [if_neg hvalid]
    have hends : ∃ r, walk mem type value.length sizePartion sizeHead _ = some r ∧
        Ends mem type value.length sizeHead r :=
      walk_ends hvalid (by decide) (by decide) hreads
    obtain ⟨r, hr, hends⟩ := hends
    exact ⟨r, hr, hends.exact_iff hvalid⟩

end Walk

/-! ## A record across the end -/

/-- The magic words, a record of type 5 up to offset 2040, and there one of type 1 with 10
bytes. -/
def crossing (i : Nat) : UInt8 :=
  if i < 2040 then
    [0x42, 0x4C, 0x52, 0x46, 0x50, 0x41, 0x52, 0x41, 0x4F, 0x36, 0x44, 0x6B, 0x58, 0x62, 0x31, 0x6B,
      5, 0, 0xE4, 7].getD i 0
  else [1, 0, 10, 0].getD (i - 2040) 0

theorem tlv_get_exact_iff_crossing :
    ∃ r, rfparamTlvGet crossing 5 (List.replicate 4 0) = some r ∧
      (Exact crossing 5 4 r ↔ Within crossing 5 4) :=
  tlv_get_exact_iff crossing 5 (List.replicate 4 0) (by decide +kernel)

/-- The value is read up to six bytes behind the partition, and 1 is returned. -/
theorem value_behind_partition : ¬ ∃ r, rfparamTlvGet crossing 1 (List.replicate 16 0) = some r ∧
    Exact crossing 1 16 r := by
  rintro ⟨r, hr, hexact⟩
  have hget : (rfparamTlvGet crossing 1 (List.replicate 16 0)).map Outcome.reads =
      some [(0, 8), (8, 8), (16, 2), (18, 2), (2040, 2), (2042, 2), (2044, 10)] := by
    decide +kernel
  rw [hr, Option.map_some, Option.some.injEq] at hget
  have hread : 2044 + 10 ≤ sizePartion :=
    hexact.inside (2044, 10) (by rw [hget]; decide)
  exact absurd hread (by decide)

end BouffaloSdk.RfTlv
