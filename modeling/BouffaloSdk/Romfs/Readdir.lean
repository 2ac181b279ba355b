import BouffaloSdk.Romfs.Lookup

/-!
# Directory enumeration

`romfs_readdir` reports the directories and files of a directory by name. The
type it reports is read where the cursor has moved to: that of the next
sibling, or of what lies behind the directory.
-/

namespace BouffaloSdk.Romfs

variable {img : Image} {volume : List UInt8} {entries es : List Entry} {e : Entry} {stop : Nat}

/-- The directories and regular files among siblings. -/
def listed (es : List Entry) : List (List UInt8 × Romfh) :=
  (es.filter fun e => e.type != .hrd).map fun e => (e.name, e.type)

/-- What the calls of `romfs_readdir` give one after the other. -/
def nthEntry (img : Image) : Nat → RomfsDir → Option (Option (List UInt8 × Romfh))
  | 0, dir => (romfsReaddir img dir).map Prod.snd
  | n + 1, dir => (romfsReaddir img dir).bind fun r => nthEntry img n r.1

/-- The directory at the path is opened and each of its entries reported once,
then none for ever. -/
def Enumerates (img : Image) (path : List UInt8) (es : List Entry) : Prop :=
  ∃ dir, romfsOpendir img path = .ok dir ∧ ∀ n, nthEntry img n dir = some (listed es)[n]?

/-! ## The cursor on the tree -/

/-- The links that the inner loop skips, up to the last sibling. -/
def skip : List Entry → List Entry
  | [] => []
  | e :: es => if es = [] ∨ e.type ≠ .hrd then e :: es else skip es

/-- A type that is a directory's or file's, or the one reported before. -/
def typeOr (type last : Romfh) : Romfh :=
  match type with
  | .dir => .dir
  | .reg => .reg
  | _ => last

/-- All that is reported from some siblings on; only the inner loop skips links
that are not dots, and it is not run for the first sibling. -/
def listing (img : Image) (stop : Nat) : (first : Bool) → (last : Romfh) → List Entry →
    List (List UInt8 × Romfh)
  | _, _, [] => []
  | first, last, e :: es =>
    if isDots e.name ∨ (first = false ∧ es ≠ [] ∧ e.type = .hrd) then listing img stop false last es
    else
      (e.name, typeOr (direntType img (boundary stop es)) last) ::
        listing img stop false (typeOr (direntType img (boundary stop es)) last) es

theorem listing_skip {last : Romfh} :
    listing img stop false last es = listing img stop false last (skip es) := by
  induction es with
  | nil => rfl
  | cons e es ih =>
    rw [skip]
    split
    · rfl
    · rename_i hskip
      rw [not_or, not_not] at hskip
      rw [listing, if_pos (.inr ⟨rfl, hskip⟩), ih]

theorem skip_laid (hlaid : Laid img stop es) : Laid img stop (skip es) := by
  induction es with
  | nil => exact .nil
  | cons e es ih =>
    rw [skip]
    split
    · exact hlaid
    · exact ih hlaid.cons.2.2.2.2

theorem nextOff_eq_zero (hlaid : Laid img stop es) : nextOff es = 0 ↔ es = [] := by
  cases es with
  | nil => exact ⟨fun _ => rfl, fun _ => rfl⟩
  | cons e es => exact ⟨fun h => absurd h (Nat.ne_of_gt hlaid.cons.2.2.1), fun h => absurd h (by simp)⟩

theorem boundary_eq (hlaid : Laid img stop es) :
    boundary stop es = if nextOff es = 0 then stop else nextOff es := by
  cases es with
  | nil => rfl
  | cons e es => rw [if_neg (mt (nextOff_eq_zero hlaid).mp (by simp)), boundary, nextOff]

/-- Siblings in front of `stop`, all behind `start`. -/
def Behind (start : Nat) (es : List Entry) : Prop := ∀ e ∈ es, start ≤ e.off

/-- The inner loop goes to the first sibling that is not skipped. -/
theorem skipLinks_eq {start : Nat} (hlaid : Laid img stop (e :: es)) (hbehind : Behind start (e :: es))
    {fuel : Nat} (hfuel : (e :: es).length ≤ fuel) :
    ∃ e' es', skip (e :: es) = e' :: es' ∧ skipLinks img start stop fuel e.off = some (e'.off, true) := by
  induction es generalizing e fuel with
  | nil =>
    obtain ⟨fuel, rfl⟩ : ∃ k, fuel = k + 1 := ⟨fuel - 1, by simp at hfuel; omega⟩
    obtain ⟨header, -, -, -, -⟩ := hlaid.cons
    have hlt := hlaid.off_lt
    have hle := hbehind e List.mem_cons_self
    refine ⟨e, [], if_pos (.inl rfl), ?_⟩
    rw [skipLinks, if_neg (by omega), header.hardfh, if_pos (show nextOff [] = 0 from rfl)]
  | cons e₂ es ih =>
    obtain ⟨fuel, rfl⟩ : ∃ k, fuel = k + 1 := ⟨fuel - 1, by simp at hfuel; omega⟩
    obtain ⟨header, -, -, -, hrest⟩ := hlaid.cons
    have hlt := hlaid.off_lt
    have hle := hbehind e List.mem_cons_self
    have hnext : nextOff (e₂ :: es) ≠ 0 := mt (nextOff_eq_zero hrest).mp (by simp)
    rw [skipLinks, if_neg (by omega), header.hardfh, if_neg hnext, header.type_eq, skip]
    by_cases hentry : e.type = .hrd
    · rw [if_neg (by simp [hentry]), if_neg (by simp [hentry])]
      exact ih hrest (fun e' he' => hbehind e' (List.mem_cons_of_mem e he')) (by simpa using hfuel)
    · have hkind : e.type = .dir ∨ e.type = .reg := by
        cases e with
        | file => exact .inr rfl
        | link => exact absurd rfl hentry
        | dir => exact .inl rfl
      rw [if_pos (.inr hentry), if_pos hkind]
      exact ⟨e, e₂ :: es, rfl, rfl⟩

theorem length_skip_le (es : List Entry) : (skip es).length ≤ es.length := by
  induction es with
  | nil => exact Nat.le_refl _
  | cons e es ih =>
    rw [skip]
    split
    · exact Nat.le_refl _
    · exact Nat.le_succ_of_le ih

theorem skip_mem {e : Entry} (h : e ∈ skip es) : e ∈ es := by
  induction es with
  | nil => exact h
  | cons e' es ih =>
    rw [skip] at h
    split at h
    · exact h
    · exact List.mem_cons_of_mem e' (ih h)

/-- The sibling that `skip` stops at is not skipped. -/
theorem skip_shown {e : Entry} {es' : List Entry} (h : skip es = e :: es') :
    ¬ (es' ≠ [] ∧ e.type = .hrd) := by
  induction es with
  | nil => exact absurd h (by simp [skip])
  | cons e' es ih =>
    rw [skip] at h
    split at h
    · rename_i hshown
      obtain ⟨rfl, rfl⟩ := List.cons.inj h
      rcases hshown with hlast | hentry
      · exact fun hskip => hskip.1 hlast
      · exact fun hskip => hentry hskip.2
    · exact ih h

/-- The cursor of `dir` is at the siblings `es`. -/
structure At (img : Image) (dir : RomfsDir) (first : Bool) (es : List Entry) : Prop where
  laid : Laid img dir.stop es
  stop_le : dir.stop ≤ 2 ^ 32
  behind : Behind dir.start es
  cur : dir.cur = if first then none else some (boundary dir.stop es)
  start : first = true → ∃ e ∈ es.head?, e.off = dir.start

/-- One call of `romfs_readdir` gives the head of the listing and leaves its tail. -/
def Reads (img : Image) (dir : RomfsDir) (out : List (List UInt8 × Romfh))
    (result : Option (RomfsDir × Option (List UInt8 × Romfh))) : Prop :=
  ∃ dir' es', At img dir' false es' ∧ dir'.stop = dir.stop ∧ result = some (dir', out.head?) ∧
    listing img dir.stop false dir'.type es' = out.tail

theorem readEntry_eq {dir : RomfsDir} (hlaid : Laid img dir.stop (e :: es)) :
    readEntry img dir e.off = { dir with cur := some (boundary dir.stop es), name := e.name } := by
  obtain ⟨header, hname, -, -, hrest⟩ := hlaid.cons
  rw [readEntry, header.hardfh, ← boundary_eq hrest,
    cstr_eq header.chars header.ended hname.nonzero hname.short]

theorem readType_eq {dir : RomfsDir} {cur : Nat} (hcur : dir.cur = some cur) :
    readType img dir = { dir with type := typeOr (direntType img cur) dir.type } := by
  obtain ⟨start, stop, cur', name, last⟩ := dir
  obtain rfl : cur' = some cur := hcur
  unfold readType
  dsimp only [Option.map_some]
  generalize direntType img cur = type
  cases type <;> rfl

theorem Reads.of_stop {dir dir' : RomfsDir} {out : List (List UInt8 × Romfh)}
    {result : Option (RomfsDir × Option (List UInt8 × Romfh))} (hstop : dir'.stop = dir.stop)
    (h : Reads img dir' out result) : Reads img dir out result := by
  obtain ⟨dir₂, es', hat, hstop', hresult, htail⟩ := h
  rw [hstop] at hstop' htail
  exact ⟨dir₂, es', hat, hstop', hresult, htail⟩

/-- The entry at a place to report. -/
theorem readdirLoop_report {dir : RomfsDir} {first : Bool} {fuel : Nat}
    (hlaid : Laid img dir.stop (e :: es)) (hstop : dir.stop ≤ 2 ^ 32)
    (hbehind : Behind dir.start (e :: es)) (hplace : nextPlace img dir = some (e.off, true))
    (hshown : ¬ (first = false ∧ es ≠ [] ∧ e.type = .hrd))
    (hdots : ∀ dir', At img dir' false es → dir'.stop = dir.stop → dir'.type = dir.type →
      Reads img dir' (listing img dir'.stop false dir'.type es) (readdirLoop img fuel dir')) :
    Reads img dir (listing img dir.stop first dir.type (e :: es)) (readdirLoop img (fuel + 1) dir) := by
  have hrest := hlaid.cons.2.2.2.2
  have hbehindRest : Behind dir.start es := fun e' he' => hbehind e' (List.mem_cons_of_mem e he')
  rw [readdirLoop, hplace, Option.bind_some]
  dsimp only
  rw [if_pos rfl, readEntry_eq hlaid, listing]
  dsimp only
  by_cases hname : isDots e.name = true
  · rw [if_pos hname, if_pos (.inl hname)]
    have hat : At img { dir with cur := some (boundary dir.stop es), name := e.name } false es :=
      ⟨hrest, hstop, hbehindRest, rfl, fun h => absurd h (by simp)⟩
    exact (hdots _ hat rfl rfl).of_stop rfl
  · rw [if_neg hname, if_neg (by rintro (h | h); exacts [hname h, hshown h]),
      readType_eq (rfl : _ = some (boundary dir.stop es))]
    refine ⟨{ dir with
        cur := some (boundary dir.stop es)
        name := e.name
        type := typeOr (direntType img (boundary dir.stop es)) dir.type },
      es, ⟨hrest, hstop, hbehindRest, rfl, fun h => absurd h (by simp)⟩, rfl, rfl, rfl⟩

theorem readdirLoop_eq {dir : RomfsDir} {first : Bool} {fuel : Nat} (hat : At img dir first es)
    (hfuel : es.length < fuel) :
    Reads img dir (listing img dir.stop first dir.type es) (readdirLoop img fuel dir) := by
  induction fuel generalizing dir first es with
  | zero => exact absurd hfuel (Nat.not_lt_zero _)
  | succ fuel ih =>
    cases first with
    | true =>
      cases es with
      | nil =>
        obtain ⟨e, he, -⟩ := hat.start rfl
        exact absurd he (by simp)
      | cons e es =>
        obtain ⟨e', he', hoff⟩ := hat.start rfl
        rw [List.head?_cons, Option.mem_some_iff] at he'
        subst he'
        have hplace : nextPlace img dir = some (e.off, true) := by
          rw [nextPlace, hat.cur, hoff]
          rfl
        exact readdirLoop_report hat.laid hat.stop_le hat.behind hplace
          (fun h => absurd h.1 (by simp)) fun dir' hat' _ _ => ih hat' (by simpa using hfuel)
    | false =>
      cases es with
      | nil =>
        have hplace : nextPlace img dir = some (dir.stop, false) := by
          rw [nextPlace, hat.cur]
          exact if_pos (Nat.le_refl _)
        rw [readdirLoop, hplace]
        exact ⟨{ dir with cur := some dir.stop }, [],
          ⟨.nil, hat.stop_le, hat.behind, rfl, fun h => absurd h (by simp)⟩, rfl, rfl, rfl⟩
      | cons e es =>
        have hlength := hat.laid.length_le
        have hstop := hat.stop_le
        obtain ⟨e', es', hskip, hlinks⟩ :=
          skipLinks_eq hat.laid hat.behind (by omega : (e :: es).length ≤ 2 ^ 32 + 1)
        have hplace : nextPlace img dir = some (e'.off, true) := by
          rw [nextPlace, hat.cur]
          exact (if_neg (Nat.not_le.mpr hat.laid.off_lt)).trans hlinks
        have hlaid := skip_laid hat.laid
        have hshown := skip_shown hskip
        have hshorter := length_skip_le (e :: es)
        rw [listing_skip, hskip]
        rw [hskip] at hlaid hshorter
        refine readdirLoop_report hlaid hstop (fun d hd => hat.behind d (skip_mem (hskip ▸ hd)))
          hplace (fun h => hshown h.2) fun dir' hat' _ _ => ih hat' ?_
        simp only [List.length_cons] at hshorter hfuel
        omega

/-- All the calls of `romfs_readdir` together give the listing. -/
theorem nthEntry_eq {dir : RomfsDir} {first : Bool} (hat : At img dir first es) (n : Nat) :
    nthEntry img n dir = some (listing img dir.stop first dir.type es)[n]? := by
  have hlength : es.length < 2 ^ 32 + 1 := by
    have hstop := hat.stop_le
    cases es with
    | nil => decide
    | cons e es =>
      have := hat.laid.length_le
      omega
  induction n generalizing dir first es with
  | zero =>
    obtain ⟨dir', es', -, -, hresult, -⟩ := readdirLoop_eq hat hlength
    rw [nthEntry, romfsReaddir, hresult, List.head?_eq_getElem?]
    rfl
  | succ n ih =>
    obtain ⟨dir', es', hat', hstop, hresult, htail⟩ := readdirLoop_eq hat hlength
    have hlength' : es'.length < 2 ^ 32 + 1 := by
      have hstop := hat'.stop_le
      cases es' with
      | nil => decide
      | cons e es' =>
        have := hat'.laid.length_le
        omega
    rw [nthEntry, romfsReaddir, hresult, Option.bind_some, ih hat' hlength', hstop, htail,
      List.getElem?_tail]

/-! ## When the listing is right -/

/-- Each entry listed is followed by one of its type, or by none while the one
listed before was of its type. A link that is not dots is neither first nor last. -/
def Followed (img : Image) (stop : Nat) : (first : Bool) → (last : Romfh) → List Entry → Prop
  | _, _, [] => True
  | first, last, e :: es =>
    if isDots e.name then Followed img stop false last es
    else if e.type = .hrd then (first = false ∧ es ≠ []) ∧ Followed img stop false last es
    else typeOr (direntType img (boundary stop es)) last = e.type ∧
      Followed img stop false e.type es

theorem listed_link (hentry : e.type = .hrd) : listed (e :: es) = listed es := by
  rw [listed, List.filter_cons, if_neg (by simp [hentry])]
  rfl

theorem listed_entry (hentry : e.type ≠ .hrd) :
    listed (e :: es) = (e.name, e.type) :: listed es := by
  rw [listed, List.filter_cons, if_pos (by simpa using hentry)]
  rfl

/-- No entry is missed. -/
theorem length_listed_le (hlaid : Laid img stop es) (first : Bool) (last : Romfh) :
    (listed es).length ≤ (listing img stop first last es).length := by
  induction es generalizing first last with
  | nil => exact Nat.le_refl _
  | cons e es ih =>
    have hrest := hlaid.cons.2.2.2.2
    rw [listing]
    by_cases hentry : e.type = .hrd
    · rw [listed_link hentry]
      split
      · exact ih hrest _ _
      · exact Nat.le_succ_of_le (ih hrest _ _)
    · have hdots := hlaid.not_dots hentry
      rw [listed_entry hentry, if_neg (by simp [hdots, hentry])]
      exact Nat.succ_le_succ (ih hrest _ _)

theorem listing_eq_iff (hlaid : Laid img stop es) (first : Bool) (last : Romfh) :
    listing img stop first last es = listed es ↔ Followed img stop first last es := by
  induction es generalizing first last with
  | nil => exact ⟨fun _ => trivial, fun _ => rfl⟩
  | cons e es ih =>
    have hrest := hlaid.cons.2.2.2.2
    rw [listing, Followed]
    by_cases hdots : isDots e.name = true
    · have hentry : e.type = .hrd := by
        by_contra hne
        rw [hlaid.not_dots hne] at hdots
        exact absurd hdots (by decide)
      rw [if_pos (.inl hdots), if_pos hdots, listed_link hentry]
      exact ih hrest _ _
    · rw [if_neg hdots]
      by_cases hentry : e.type = .hrd
      · rw [listed_link hentry, if_pos hentry]
        by_cases hskip : first = false ∧ es ≠ []
        · rw [if_pos (.inr ⟨hskip.1, hskip.2, hentry⟩), and_iff_right hskip]
          exact ih hrest _ _
        · rw [if_neg (by rintro (h | h); exacts [hdots h, hskip ⟨h.1, h.2.1⟩])]
          refine ⟨fun heq => ?_, fun h => absurd h.1 hskip⟩
          have hlength := congrArg List.length heq
          have hle := length_listed_le hrest false (typeOr (direntType img (boundary stop es)) last)
          rw [List.length_cons] at hlength
          omega
      · rw [listed_entry hentry, if_neg (by simp [hdots, hentry]), if_neg hentry, List.cons.injEq,
          Prod.mk.injEq, and_iff_right rfl]
        refine and_congr_right fun htype => ?_
        rw [htype]
        exact ih hrest _ _

theorem listing_getElem?_iff {out : List (List UInt8 × Romfh)} {dir : RomfsDir} {first : Bool}
    (hat : At img dir first es) :
    (∀ n, nthEntry img n dir = some out[n]?) ↔ listing img dir.stop first dir.type es = out := by
  constructor
  · intro h
    apply List.ext_getElem?
    intro n
    have hn := h n
    rw [nthEntry_eq hat] at hn
    exact Option.some.inj hn
  · rintro rfl n
    exact nthEntry_eq hat n

/-- The first sibling lies in front of the others. -/
theorem Laid.behind (hlaid : Laid img stop (e :: es)) : Behind e.off (e :: es) := by
  induction es generalizing e with
  | nil =>
    intro e' he'
    rw [List.mem_singleton.mp he']
  | cons e₂ es ih =>
    obtain ⟨-, -, -, hroom, hrest⟩ := hlaid.cons
    rw [boundary] at hroom
    intro e' he'
    rcases List.mem_cons.mp he' with rfl | hmem
    · exact Nat.le_refl _
    · have := ih hrest e' hmem
      omega

/-- A directory that is opened at its first entry. -/
theorem opened_iff (hlaid : Laid img stop (e :: es)) (hstop : stop ≤ 2 ^ 32) :
    (∀ n, nthEntry img n ⟨e.off, stop, none, [], .hrd⟩ = some (listed (e :: es))[n]?) ↔
      Followed img stop true .hrd (e :: es) := by
  have hat : At img ⟨e.off, stop, none, [], .hrd⟩ true (e :: es) :=
    ⟨hlaid, hstop, hlaid.behind, rfl, fun _ => ⟨e, rfl, rfl⟩⟩
  rw [listing_getElem?_iff hat]
  exact listing_eq_iff hlaid _ _

theorem Laid.mem_pos (hlaid : Laid img stop es) (he : e ∈ es) : 0 < e.name.length := by
  induction es with
  | nil => exact absurd he List.not_mem_nil
  | cons e' es ih =>
    rcases List.mem_cons.mp he with rfl | hmem
    · exact hlaid.cons.2.1.pos
    · exact ih hlaid.cons.2.2.2.2 hmem

/-- Padding is reported as an entry without a name. -/
theorem opened_padding {start : Nat} (hzero : ∀ i < 32, img (start + i) = 0)
    (hlaid : Laid img stop es) :
    ¬ ∀ n, nthEntry img n ⟨start, stop, none, [], .hrd⟩ = some (listed es)[n]? := by
  intro h
  have hname : cstr img (start + 16) romfsMaxNameLen = [] := by
    rw [romfsMaxNameLen, cstr, if_pos (hzero 16 (by decide))]
  have hread : readEntry img ⟨start, stop, none, [], .hrd⟩ start =
      ⟨start, stop, some stop, [], .hrd⟩ := by
    have hnext : direntHardfh img start = 0 := by
      simp [direntHardfh, word_zero hzero]
    rw [readEntry, hname, hnext]
    rfl
  have hdots : ¬ isDots [] = true := by decide
  have hfirst := h 0
  rw [nthEntry, romfsReaddir, readdirLoop, nextPlace, Option.bind_some] at hfirst
  dsimp only at hfirst
  rw [if_pos rfl, hread, if_neg hdots, Option.map_some, readType_eq (rfl : _ = some stop)] at hfirst
  have hmem := List.mem_of_getElem? (Option.some.inj hfirst).symm
  obtain ⟨e, he, hentry⟩ := List.mem_map.mp hmem
  have hpos := hlaid.mem_pos (List.mem_of_mem_filter he)
  have hempty : e.name = [] := (Prod.mk.inj hentry).1
  rw [hempty] at hpos
  exact absurd hpos (by decide)

/-- The end of the directory that the path names. -/
def dirStop (img : Image) (volume : List UInt8) (entries : List Entry) (path : List UInt8) : Nat :=
  (pathNames path).elim 0 (walkStop (.dir 0 volume entries) (romfsEndaddr img))

theorem romfsOpendir_root {path : List UInt8} (h : direntFile img path = .found 0 stop) :
    romfsOpendir img path = .ok ⟨rootStart img, stop, none, [], .hrd⟩ := by
  unfold romfsOpendir
  rw [h]
  rfl

theorem romfsOpendir_dir {path : List UInt8} {off child : Nat} (h : direntFile img path = .found off stop)
    (hoff : off ≠ 0) (hchild : direntChildaddr img off = child) (hpos : child ≠ 0) :
    romfsOpendir img path = .ok ⟨child, stop, none, [], .hrd⟩ := by
  unfold romfsOpendir
  rw [h]
  dsimp only
  rw [if_neg hoff, hchild, if_neg hpos]

theorem enumerates_of_opened {path : List UInt8} {dir : RomfsDir}
    (hopen : romfsOpendir img path = .ok dir) :
    Enumerates img path es ↔ ∀ n, nthEntry img n dir = some (listed es)[n]? := by
  constructor
  · rintro ⟨dir', hopen', h⟩
    obtain rfl := Except.ok.inj (hopen.symm.trans hopen')
    exact h
  · exact fun h => ⟨dir, hopen, h⟩

/-- Without padding at the root, a directory that is named is enumerated if
and only if its entries are followed by their own type. -/
theorem enumerates_iff_followed (h : WellFormed img volume entries)
    (hseen : seen img entries = entries) {path : List UInt8} (hpath : ∀ ch ∈ path, ch ≠ 0)
    {off : Nat} {name : List UInt8} (hlookup : lookup volume entries path = some (.dir off name es)) :
    Enumerates img path es ↔
      es ≠ [] ∧ Followed img (dirStop img volume entries path) true .hrd es := by
  have hfile := direntFile_eq h hpath
  unfold lookup at hlookup
  unfold dirStop
  rcases hnames : pathNames path with - | names
  · rw [hnames] at hlookup
    exact absurd hlookup (by simp)
  · rw [hnames, Option.bind_some] at hlookup
    rw [hnames, Option.elim_some, hseen] at hfile
    rw [Option.elim_some]
    have hinside : Inside img (romfsEndaddr img) (.dir 0 volume entries) := h.laid
    have hend : romfsEndaddr img ≤ 2 ^ 32 := Nat.le_of_lt (word_lt img 8)
    obtain ⟨hcrawl, hin, hbound, hwhere⟩ := @crawl_of_walk _ _ _ entries names hinside hend _ hlookup
    rw [hcrawl] at hfile
    have hlaid : Laid img (walkStop (.dir 0 volume entries) (romfsEndaddr img) names) es := hin
    rcases hwhere with hroot | ⟨bound, rest, hsits, -⟩
    · obtain ⟨rfl, -, rfl⟩ := Entry.dir.inj hroot
      rw [enumerates_of_opened (romfsOpendir_root hfile)]
      cases es with
      | nil =>
        refine ⟨fun hall => absurd hall (opened_padding (h.padding hseen) hlaid), fun hne => ?_⟩
        exact absurd rfl hne.1
      | cons e es =>
        have hfirst : e.off = rootStart img := by
          rw [seen] at hseen
          by_contra hne
          rw [if_neg hne] at hseen
          exact List.cons_ne_nil e es hseen.symm
        rw [← hfirst, opened_iff hlaid hbound, and_iff_right (List.cons_ne_nil e es)]
    · obtain ⟨child, rest, rfl, hlt, hchild, -⟩ := hsits.children rfl
      have hpos := hsits.cons.2.2.1
      have hopen := romfsOpendir_dir hfile (Nat.ne_of_gt hpos) hchild (by omega)
      rw [enumerates_of_opened hopen, opened_iff hlaid hbound,
        and_iff_right (List.cons_ne_nil child rest)]

/-- From padding on nothing is enumerated. -/
theorem not_enumerates_padding (h : WellFormed img volume entries) (hseen : seen img entries = [])
    {path : List UInt8} (hpath : ∀ ch ∈ path, ch ≠ 0) {off : Nat}
    {name : List UInt8} (hlookup : lookup volume entries path = some (.dir off name es)) :
    ¬ Enumerates img path es := by
  have hfile := direntFile_eq h hpath
  unfold lookup at hlookup
  rcases hnames : pathNames path with - | names
  · rw [hnames] at hlookup
    exact absurd hlookup (by simp)
  · rw [hnames, Option.bind_some] at hlookup
    rw [hnames, Option.elim_some, hseen] at hfile
    have hroot : ∀ {names}, names = [] ∨ names = [[]] →
        walk (.dir 0 volume entries) names = some (.dir 0 volume entries) ∧
          crawl [] (.dir 0 volume []) (romfsEndaddr img) names = .found 0 (romfsEndaddr img) := by
      rintro names (rfl | rfl)
      · exact ⟨rfl, rfl⟩
      · exact ⟨if_pos ⟨rfl, rfl⟩, if_pos ⟨rfl, rfl⟩⟩
    by_cases htrivial : names = [] ∨ names = [[]]
    · obtain ⟨hwalk, hcrawl⟩ := hroot htrivial
      rw [hwalk] at hlookup
      obtain ⟨-, -, rfl⟩ := Entry.dir.inj (Option.some.inj hlookup)
      rw [hcrawl] at hfile
      rw [enumerates_of_opened (romfsOpendir_root hfile)]
      exact opened_padding (h.padding hseen) h.laid
    · rintro ⟨dir, hopen, -⟩
      cases names with
      | nil => exact htrivial (.inl rfl)
      | cons c cs =>
        have htrailing : ¬ (c = [] ∧ cs = []) := by
          rintro ⟨rfl, rfl⟩
          exact htrivial (.inr rfl)
        unfold romfsOpendir at hopen
        rcases hreply : direntFile img path with ⟨start, stop'⟩ | code | -
        · rw [hreply] at hfile
          exact crawl_padding htrailing (.link start []) hfile.symm
        · rw [hreply] at hopen
          exact absurd hopen (by simp)
        · rw [hreply] at hopen
          exact absurd hopen (by simp)

/-- A directory of a well-formed image is enumerated if and only if the root is
not padded, the directory is not an empty root, and each of its entries is
followed by its own type. -/
theorem readdir_enumerates_iff_followed (img : Image) (volume : List UInt8) (entries : List Entry)
    (h : WellFormed img volume entries) (path : List UInt8) (hpath : ∀ ch ∈ path, ch ≠ 0)
    (off : Nat) (name : List UInt8) (es : List Entry)
    (hlookup : lookup volume entries path = some (.dir off name es)) :
    Enumerates img path es ↔
      seen img entries = entries ∧ es ≠ [] ∧
        Followed img (dirStop img volume entries path) true .hrd es := by
  rcases seen_cases img entries with hseen | ⟨hseen, hne⟩
  · rw [and_iff_right hseen]
    exact enumerates_iff_followed h hseen hpath hlookup
  · refine ⟨fun henum => absurd henum (not_enumerates_padding h hseen hpath hlookup), fun hall => ?_⟩
    rw [hseen] at hall
    exact absurd hall.1.symm hne

/-- `"/romfs/d"`, with the entries of `d`. -/
def sampleDir : List UInt8 := romfsMountpoint ++ [slash, 0x64]
def sampleDirEntries : List Entry := [.link 176 dot, .link 208 dotDot, .file 240 [0x62] [0x69]]

theorem readdir_enumerates_sample :
    Enumerates sampleImage sampleDir sampleDirEntries ↔
      seen sampleImage sampleEntries = sampleEntries ∧ sampleDirEntries ≠ [] ∧
        Followed sampleImage (dirStop sampleImage [0x72] sampleEntries sampleDir) true .hrd
          sampleDirEntries :=
  readdir_enumerates_iff_followed _ _ _ sample_wellFormed _ (by decide +kernel) 144 [0x64] _ (by rfl)

/-- The file `b` is reported with the type of what lies behind the directory. -/
theorem readdir_type_of_next :
    WellFormed sampleImage [0x72] sampleEntries ∧
      lookup [0x72] sampleEntries sampleDir = some (.dir 144 [0x64] sampleDirEntries) ∧
      ¬ Enumerates sampleImage sampleDir sampleDirEntries := by
  refine ⟨sample_wellFormed, by rfl, fun h => ?_⟩
  have hfile : direntFile sampleImage sampleDir = .found 144 288 := by decide +kernel
  have hopen := romfsOpendir_dir hfile (by decide) (by decide +kernel : _ = 176) (by decide)
  have hfirst := (enumerates_of_opened hopen).mp h 0
  have hread : nthEntry sampleImage 0 ⟨176, 288, none, [], .hrd⟩ = some (some ([0x62], .hrd)) := by
    decide +kernel
  rw [hread] at hfirst
  exact absurd hfirst (by decide)

end BouffaloSdk.Romfs
