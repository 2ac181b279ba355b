import BouffaloSdk.Romfs.BflbRomfs

/-!
# Images as `genromfs` lays them out

A tree of directories, files and links, each with its place. Headers of
siblings are chained by their first word, a directory's second word is its
first child, and all that belongs to an entry lies before its next sibling.
-/

namespace BouffaloSdk.Romfs

inductive Entry
  | file (off : Nat) (name data : List UInt8)
  | link (off : Nat) (name : List UInt8)
  | dir (off : Nat) (name : List UInt8) (entries : List Entry)

namespace Entry

def off : Entry → Nat
  | file off _ _ => off
  | link off _ => off
  | dir off _ _ => off

def name : Entry → List UInt8
  | file _ name _ => name
  | link _ name => name
  | dir _ name _ => name

def type : Entry → Romfh
  | file .. => .reg
  | link .. => .hrd
  | dir .. => .dir

/-- A directory or regular file of this name. -/
def isNamed (name : List UInt8) (e : Entry) : Bool := e.type != .hrd && e.name == name

end Entry

/-- The place of the first of some siblings, 0 for none. -/
def nextOff : List Entry → Nat
  | [] => 0
  | e :: _ => e.off

/-- Where the first of some siblings lies, or all of them end. -/
def boundary (stop : Nat) : List Entry → Nat
  | [] => stop
  | e :: _ => e.off

def typeBits : Romfh → Nat
  | .hrd => 0
  | .dir => 1
  | .reg => 2
  | .unknow => 3

/-- 1 to 64 characters of those allowed in a name. -/
structure NameOk (name : List UInt8) : Prop where
  pos : 0 < name.length
  short : name.length ≤ romfsMaxNameLen
  chars : ∀ ch ∈ name, isPathCh ch = true ∧ ch ≠ slash

/-- A header: the next sibling with type and execution bit, then the name. -/
structure Header (img : Image) (off next : Nat) (type : Romfh) (name : List UInt8) : Prop where
  first : ∃ exec < 2, word img off = next + 8 * exec + typeBits type
  aligned : next % 16 = 0
  chars : bytesAt img (off + 16) name.length = name
  ended : img (off + 16 + name.length) = 0

/-- Where what follows a header with this name lies. -/
def headerEnd (off : Nat) (name : List UInt8) : Nat := off + 16 + alignUp16 (name.length + 1)

/-- The siblings `es` are laid out in front of `stop`. -/
inductive Laid (img : Image) : (stop : Nat) → (es : List Entry) → Prop
  | nil {stop : Nat} : Laid img stop []
  | file {stop off : Nat} {name data : List UInt8} {es : List Entry} :
    Header img off (nextOff es) .reg name → NameOk name → isDots name = false → 0 < off →
      headerEnd off name + data.length ≤ boundary stop es → word img (off + 4) = 0 →
      direntSize img off = data.length → bytesAt img (headerEnd off name) data.length = data →
      Laid img stop es → Laid img stop (.file off name data :: es)
  | link {stop off : Nat} {name : List UInt8} {es : List Entry} :
    Header img off (nextOff es) .hrd name → NameOk name → 0 < off →
      headerEnd off name ≤ boundary stop es → Laid img stop es →
      Laid img stop (.link off name :: es)
  | dir {stop off : Nat} {name : List UInt8} {child : Entry} {children es : List Entry} :
    Header img off (nextOff es) .dir name → NameOk name → isDots name = false → 0 < off →
      headerEnd off name ≤ child.off → child.off < boundary stop es →
      word img (off + 4) = child.off → child.off % 16 = 0 →
      Laid img (boundary stop es) (child :: children) → Laid img stop es →
      Laid img stop (.dir off name (child :: children) :: es)

/-- `".", ".."`. -/
def dot : List UInt8 := [0x2e]
def dotDot : List UInt8 := [0x2e, 0x2e]

/-- An image with the volume name `volume` and the root entries `entries`. The
header is followed by the root's `.` and `..`. Behind them is the first entry
or padding: that of a first entry with an alignment of its own, or behind an
empty root. -/
structure WellFormed (img : Image) (volume : List UInt8) (entries : List Entry) : Prop where
  magic : word img 0 = 0x2d726f6d ∧ word img 4 = 0x3166732d
  volume_chars : bytesAt img 16 volume.length = volume
  volume_nonzero : ∀ ch ∈ volume, ch ≠ 0
  volume_ended : img (16 + volume.length) = 0
  volume_short : volume.length < 2 ^ 32
  self : Header img (headerEnd 0 volume) (headerEnd 0 volume + 32) .dir dot
  parent : Header img (headerEnd 0 volume + 32) (nextOff entries) .hrd dotDot
  size_gt : headerEnd 0 volume + 64 ≤ romfsEndaddr img
  first : (∃ e ∈ entries.head?, e.off = headerEnd 0 volume + 64) ∨
    ∀ i < 32, img (headerEnd 0 volume + 64 + i) = 0
  laid : Laid img (romfsEndaddr img) entries

/-! ## What the reader sees -/

variable {img : Image} {off next stop : Nat} {type : Romfh} {name : List UInt8}

theorem Header.word_eq (h : Header img off next type name) :
    word img off / 16 * 16 = next ∧ word img off % 8 = typeBits type := by
  obtain ⟨exec, hexec, hword⟩ := h.first
  have haligned := h.aligned
  have hbits : typeBits type < 4 := by cases type <;> decide
  omega

theorem Header.hardfh (h : Header img off next type name) : direntHardfh img off = next :=
  h.word_eq.1

theorem Header.type_eq (h : Header img off next type name) : direntType img off = type := by
  unfold direntType
  rw [h.word_eq.2]
  cases type <;> rfl

@[simp] theorem length_bytesAt (img : Image) (addr n : Nat) : (bytesAt img addr n).length = n := by
  rw [bytesAt, List.length_map, List.length_range]

theorem getElem_of_bytesAt {addr : Nat} (h : bytesAt img addr name.length = name) {i : Nat}
    (hi : i < name.length) : img (addr + i) = name[i] := by
  have hget : (bytesAt img addr name.length)[i]? = some (img (addr + i)) := by
    simp [bytesAt, hi]
  rw [h, List.getElem?_eq_getElem hi] at hget
  exact (Option.some.inj hget).symm

theorem NameOk.nonzero (h : NameOk name) : ∀ ch ∈ name, ch ≠ 0 := by
  intro ch hch hzero
  have hpath := (h.chars ch hch).1
  rw [hzero] at hpath
  exact absurd hpath (by decide)

/-- The comparison with a string in memory is that of the strings. -/
theorem isNamed_iff {path : List UInt8} (hchars : bytesAt img (off + 16) name.length = name)
    (hended : img (off + 16 + name.length) = 0) (hname : ∀ ch ∈ name, ch ≠ 0)
    (hpath : ∀ ch ∈ path, ch ≠ 0) : isNamed img path off = (name == path) := by
  unfold isNamed
  rw [Bool.eq_iff_iff, Bool.and_eq_true, beq_iff_eq, beq_iff_eq, beq_iff_eq]
  constructor
  · rintro ⟨hbytes, hzero⟩
    rcases Nat.lt_trichotomy path.length name.length with hlt | heq | hgt
    · rw [getElem_of_bytesAt hchars hlt] at hzero
      exact absurd hzero (hname _ (List.getElem_mem _))
    · rw [← hchars, ← heq]
      exact hbytes
    · rw [getElem_of_bytesAt hbytes hgt] at hended
      exact absurd hended (hpath _ (List.getElem_mem _))
  · rintro rfl
    exact ⟨hchars, hended⟩

theorem bytesAt_succ (img : Image) (addr n : Nat) :
    bytesAt img addr (n + 1) = img addr :: bytesAt img (addr + 1) n := by
  unfold bytesAt
  rw [List.range_succ_eq_map, List.map_cons, List.map_map, Nat.add_zero]
  congr 1
  refine List.map_congr_left fun i _ => ?_
  rw [Function.comp, Nat.succ_eq_add_one, Nat.add_assoc, Nat.add_comm 1 i]

/-- A string in memory is read up to its end. -/
theorem cstr_eq {addr n : Nat} (hchars : bytesAt img addr name.length = name)
    (hended : img (addr + name.length) = 0) (hname : ∀ ch ∈ name, ch ≠ 0)
    (hn : name.length ≤ n) : cstr img addr n = name := by
  induction name generalizing addr n with
  | nil =>
    cases n with
    | zero => rfl
    | succ n => rw [cstr, if_pos (by simpa using hended)]
  | cons ch name ih =>
    obtain ⟨n, rfl⟩ := Nat.exists_eq_succ_of_ne_zero
      (Nat.ne_of_gt (Nat.lt_of_lt_of_le (Nat.succ_pos _) hn))
    rw [List.length_cons, bytesAt_succ, List.cons.injEq] at hchars
    obtain ⟨hfirst, hrest⟩ := hchars
    rw [cstr, hfirst, if_neg (hname ch List.mem_cons_self)]
    congr 1
    refine ih hrest ?_ (fun ch' hch' => hname ch' (List.mem_cons_of_mem ch hch'))
      (Nat.le_of_succ_le_succ hn)
    rw [List.length_cons] at hended
    rwa [Nat.add_assoc, Nat.add_comm 1]

variable {volume : List UInt8} {entries es : List Entry} {e : Entry}

/-- The image's own header is that of no entry. -/
theorem WellFormed.type_zero (h : WellFormed img volume entries) :
    direntType img 0 = .unknow := by
  unfold direntType
  rw [h.magic.1]
  rfl

theorem WellFormed.rootStart_eq (h : WellFormed img volume entries) :
    rootStart img = headerEnd 0 volume + 64 := by
  have hvolume := cstr_eq h.volume_chars h.volume_ended h.volume_nonzero
    (Nat.le_of_lt h.volume_short)
  rw [rootStart, hvolume, headerEnd]
  omega

theorem word_lt (img : Image) (addr : Nat) : word img addr < 2 ^ 32 := by
  have h0 := (img addr).toNat_lt
  have h1 := (img (addr + 1)).toNat_lt
  have h2 := (img (addr + 2)).toNat_lt
  have h3 := (img (addr + 3)).toNat_lt
  unfold word
  omega

theorem add_le_of_headerEnd {b : Nat} (h : headerEnd off name ≤ b) : off + 32 ≤ b := by
  unfold headerEnd alignUp16 at h
  omega

/-! ## Siblings -/

/-- What a layout says of the first sibling, whatever it is. -/
theorem Laid.cons (h : Laid img stop (e :: es)) :
    Header img e.off (nextOff es) e.type e.name ∧ NameOk e.name ∧ 0 < e.off ∧
      e.off + 32 ≤ boundary stop es ∧ Laid img stop es := by
  cases h with
  | file header name _ pos room _ _ _ rest =>
    exact ⟨header, name, pos, add_le_of_headerEnd (Nat.le_trans (Nat.le_add_right _ _) room), rest⟩
  | link header name pos room rest =>
    exact ⟨header, name, pos, add_le_of_headerEnd room, rest⟩
  | dir header name _ pos room inside _ _ _ rest =>
    exact ⟨header, name, pos, Nat.le_trans (add_le_of_headerEnd room) (Nat.le_of_lt inside), rest⟩

theorem Laid.not_dots (h : Laid img stop (e :: es)) (hentry : e.type ≠ .hrd) :
    isDots e.name = false := by
  cases h with
  | file _ _ hdots => exact hdots
  | link => exact absurd rfl hentry
  | dir _ _ hdots => exact hdots

theorem Laid.off_lt (h : Laid img stop (e :: es)) : e.off < stop := by
  induction es generalizing e with
  | nil =>
    obtain ⟨-, -, -, hroom, -⟩ := h.cons
    rw [boundary] at hroom
    omega
  | cons e' es ih =>
    obtain ⟨-, -, -, hroom, hrest⟩ := h.cons
    have := ih hrest
    rw [boundary] at hroom
    omega

theorem Laid.mem_off (h : Laid img stop es) (he : e ∈ es) : 0 < e.off ∧ e.off < stop := by
  induction es with
  | nil => exact absurd he List.not_mem_nil
  | cons e' es ih =>
    rcases List.mem_cons.mp he with rfl | hmem
    · exact ⟨h.cons.2.2.1, h.off_lt⟩
    · exact ih h.cons.2.2.2.2 hmem

/-- Siblings lie behind each other, so there are not more of them than places. -/
theorem Laid.length_le (h : Laid img stop (e :: es)) : e.off + (e :: es).length ≤ stop := by
  induction es generalizing e with
  | nil => exact h.off_lt
  | cons e' es ih =>
    obtain ⟨-, -, -, hroom, hrest⟩ := h.cons
    have := ih hrest
    rw [boundary] at hroom
    rw [List.length_cons]
    omega

/-- The bytes of a directory's children end where its own do. -/
theorem Laid.children (h : Laid img stop (e :: es)) {off : Nat} {name : List UInt8}
    {children : List Entry} (hdir : e = .dir off name children) :
    ∃ child rest, children = child :: rest ∧ off < child.off ∧
      direntChildaddr img off = child.off ∧ Laid img (boundary stop es) children := by
  subst hdir
  cases h with
  | dir _ _ _ _ room _ spec aligned inside _ =>
    have hroom := add_le_of_headerEnd room
    refine ⟨_, _, rfl, by omega, ?_, inside⟩
    rw [direntChildaddr, spec]
    omega

/-! ## An image -/

/-- The bytes of an image with a file `a` and a directory `d` that holds a file `b`. -/
def sampleBytes : List UInt8 := [
  0x2d, 0x72, 0x6f, 0x6d, 0x31, 0x66, 0x73, 0x2d, 0x00, 0x00, 0x01, 0x20, 0x00, 0x00, 0x00, 0x00,
  0x72, 0x00, 0x00, 0x00, 0x00, 0x00, 0x00, 0x00, 0x00, 0x00, 0x00, 0x00, 0x00, 0x00, 0x00, 0x00,
  0x00, 0x00, 0x00, 0x49, 0x00, 0x00, 0x00, 0x20, 0x00, 0x00, 0x00, 0x00, 0x00, 0x00, 0x00, 0x00,
  0x2e, 0x00, 0x00, 0x00, 0x00, 0x00, 0x00, 0x00, 0x00, 0x00, 0x00, 0x00, 0x00, 0x00, 0x00, 0x00,
  0x00, 0x00, 0x00, 0x60, 0x00, 0x00, 0x00, 0x20, 0x00, 0x00, 0x00, 0x00, 0x00, 0x00, 0x00, 0x00,
  0x2e, 0x2e, 0x00, 0x00, 0x00, 0x00, 0x00, 0x00, 0x00, 0x00, 0x00, 0x00, 0x00, 0x00, 0x00, 0x00,
  0x00, 0x00, 0x00, 0x92, 0x00, 0x00, 0x00, 0x00, 0x00, 0x00, 0x00, 0x01, 0x00, 0x00, 0x00, 0x00,
  0x61, 0x00, 0x00, 0x00, 0x00, 0x00, 0x00, 0x00, 0x00, 0x00, 0x00, 0x00, 0x00, 0x00, 0x00, 0x00,
  0x68, 0x00, 0x00, 0x00, 0x00, 0x00, 0x00, 0x00, 0x00, 0x00, 0x00, 0x00, 0x00, 0x00, 0x00, 0x00,
  0x00, 0x00, 0x00, 0x09, 0x00, 0x00, 0x00, 0xb0, 0x00, 0x00, 0x00, 0x00, 0x00, 0x00, 0x00, 0x00,
  0x64, 0x00, 0x00, 0x00, 0x00, 0x00, 0x00, 0x00, 0x00, 0x00, 0x00, 0x00, 0x00, 0x00, 0x00, 0x00,
  0x00, 0x00, 0x00, 0xd0, 0x00, 0x00, 0x00, 0x90, 0x00, 0x00, 0x00, 0x00, 0x00, 0x00, 0x00, 0x00,
  0x2e, 0x00, 0x00, 0x00, 0x00, 0x00, 0x00, 0x00, 0x00, 0x00, 0x00, 0x00, 0x00, 0x00, 0x00, 0x00,
  0x00, 0x00, 0x00, 0xf0, 0x00, 0x00, 0x00, 0x20, 0x00, 0x00, 0x00, 0x00, 0x00, 0x00, 0x00, 0x00,
  0x2e, 0x2e, 0x00, 0x00, 0x00, 0x00, 0x00, 0x00, 0x00, 0x00, 0x00, 0x00, 0x00, 0x00, 0x00, 0x00,
  0x00, 0x00, 0x00, 0x02, 0x00, 0x00, 0x00, 0x00, 0x00, 0x00, 0x00, 0x01, 0x00, 0x00, 0x00, 0x00,
  0x62, 0x00, 0x00, 0x00, 0x00, 0x00, 0x00, 0x00, 0x00, 0x00, 0x00, 0x00, 0x00, 0x00, 0x00, 0x00,
  0x69, 0x00, 0x00, 0x00, 0x00, 0x00, 0x00, 0x00, 0x00, 0x00, 0x00, 0x00, 0x00, 0x00, 0x00, 0x00]

def sampleImage : Image := fun addr => sampleBytes.getD addr 0

def sampleEntries : List Entry :=
  [.file 96 [0x61] [0x68],
    .dir 144 [0x64] [.link 176 dot, .link 208 dotDot, .file 240 [0x62] [0x69]]]

theorem nameOk_sample : NameOk [0x61] ∧ NameOk [0x62] ∧ NameOk [0x64] ∧ NameOk dot ∧ NameOk dotDot := by
  refine ⟨⟨?_, ?_, ?_⟩, ⟨?_, ?_, ?_⟩, ⟨?_, ?_, ?_⟩, ⟨?_, ?_, ?_⟩, ⟨?_, ?_, ?_⟩⟩ <;> decide +kernel

theorem sample_wellFormed : WellFormed sampleImage [0x72] sampleEntries := by
  obtain ⟨ha, hb, hd, hdot, hdotDot⟩ := nameOk_sample
  have hchildren : Laid sampleImage 288
      [.link 176 dot, .link 208 dotDot, .file 240 [0x62] [0x69]] := by
    refine .link ⟨⟨0, ?_⟩, ?_, ?_, ?_⟩ hdot ?_ ?_ (.link ⟨⟨0, ?_⟩, ?_, ?_, ?_⟩ hdotDot ?_ ?_
      (.file ⟨⟨0, ?_⟩, ?_, ?_, ?_⟩ hb ?_ ?_ ?_ ?_ ?_ ?_ .nil)) <;> decide +kernel
  have hentries : Laid sampleImage 288 sampleEntries := by
    refine .file ⟨⟨0, ?_⟩, ?_, ?_, ?_⟩ ha ?_ ?_ ?_ ?_ ?_ ?_
      (.dir ⟨⟨1, ?_⟩, ?_, ?_, ?_⟩ hd ?_ ?_ ?_ ?_ ?_ ?_ hchildren .nil) <;> decide +kernel
  have hend : romfsEndaddr sampleImage = 288 := by decide +kernel
  refine ⟨?_, ?_, ?_, ?_, ?_, ⟨⟨1, ?_⟩, ?_, ?_, ?_⟩, ⟨⟨0, ?_⟩, ?_, ?_, ?_⟩, ?_, .inl ⟨_, rfl, ?_⟩,
    hend ▸ hentries⟩ <;> decide +kernel

end BouffaloSdk.Romfs
