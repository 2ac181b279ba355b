import BouffaloSdk.Romfs.Lookup

/-!
# What the path check lets through

`filter_format` compares the position of a slash with itself at an earlier
turn, so it never sees two slashes in a row, and it bounds no name. What
`dirent_file` copies to its buffer is then up to the path and the image.
-/

namespace BouffaloSdk.Romfs

/-- `strlen(name) + 1` for the longest name. -/
def nameBufferSize : Nat := romfsMaxNameLen + 1

/-- The lengths that the loop of `dirent_file` copies to its buffer, in order.
A name that leaves no room for the zero is copied, and not found. -/
def middleCopies (img : Image) : (fuel : Nat) → (pName : List UInt8) → (start stop : Nat) →
    (needEnterChild : Bool) → List Nat
  | 0, _, _, _, _ => []
  | fuel + 1, pName, start, stop, needEnterChild =>
    if pName = [] then []
    else if needEnterChild && start == direntChildaddr img start then []
    else
      let start := if needEnterChild then direntChildaddr img start else start
      let name := pName.takeWhile (· != slash)
      match pName.dropWhile (· != slash) with
      | [] => []
      | _ :: rest =>
        name.length ::
          match fileInfo img name start stop with
          | .found start stop => middleCopies img fuel rest start stop true
          | _ => []

def direntCopies (img : Image) (path : List UInt8) : List Nat :=
  if path.take romfsMountpoint.length ≠ romfsMountpoint then []
  else
    match path.drop romfsMountpoint.length with
    | [] => []
    | ch :: pName =>
      if ch ≠ slash then []
      else middleCopies img (pName.length + 1) pName 0 (romfsEndaddr img) false

/-- The paths that are to be accepted. -/
structure PathOk (path : List UInt8) : Prop where
  mount : romfsMountpoint <+: path
  chars : ∀ ch ∈ path, isPathCh ch = true
  apart : ¬ [slash, slash] <:+: path

/-- The check accepts the right paths, and of those it accepts no name is
copied past the buffer. -/
structure PathChecked (img : Image) (path : List UInt8) : Prop where
  accepts : filterFormat path = 0 ↔ PathOk path
  copies : filterFormat path = 0 → ∀ n ∈ direntCopies img path, n ≤ nameBufferSize

/-- Where a search stands: an entry, the end of what belongs to it, and whether
its children come next. -/
structure Place where
  start : Nat
  stop : Nat
  needEnterChild : Bool

/-- Where the next name is looked up. -/
def Place.enter (img : Image) (p : Place) : Option Nat :=
  if p.needEnterChild && p.start == direntChildaddr img p.start then none
  else some (if p.needEnterChild then direntChildaddr img p.start else p.start)

/-- The entry of that name, if it is found. -/
def Place.find (img : Image) (p : Place) (name : List UInt8) : Option Place :=
  (p.enter img).bind fun start =>
    match fileInfo img name start p.stop with
    | .found start stop => some ⟨start, stop, true⟩
    | _ => none

/-- Of the names `names`, searched from `p` on, the one called `c` stands in the
middle, and all before it are found. -/
def Reaches (img : Image) (p : Place) (names : List (List UInt8)) (c : List UInt8) : Prop :=
  ∃ before after q, names = before ++ c :: after ∧ after ≠ [] ∧
    before.foldlM (Place.find img) p = some q ∧ (q.enter img).isSome

/-- The path has a name in the middle that does not fit the buffer, and the
names before it are found. -/
def LongReached (img : Image) (path : List UInt8) : Prop :=
  ∃ names c, pathNames path = some names ∧ nameBufferSize < c.length ∧
    Reaches img ⟨0, romfsEndaddr img, false⟩ names c

variable {img : Image} {path c : List UInt8} {names : List (List UInt8)}

/-! ## The check -/

theorem filterLoop_eq_zero_iff {i iOld : Nat} (h : iOld < i ∨ i = 0 ∧ iOld = 0) :
    filterLoop path i iOld = 0 ↔ ∀ ch ∈ path, isPathCh ch = true := by
  induction path generalizing i iOld with
  | nil => exact ⟨fun _ ch hch => absurd hch List.not_mem_nil, fun _ => rfl⟩
  | cons ch path ih =>
    have hnext : iOld < i + 1 := by omega
    rw [filterLoop, List.forall_mem_cons]
    cases hpath : isPathCh ch with
    | false =>
      rw [if_pos rfl]
      exact ⟨fun h => absurd h (by decide), fun h => absurd h.1 Bool.false_ne_true⟩
    | true =>
      rw [if_neg Bool.noConfusion, eq_self_iff_true, true_and]
      by_cases hslash : ch ≠ slash
      · rw [if_pos hslash]
        exact ih (.inl hnext)
      · rw [if_neg hslash]
        by_cases hfirst : i ≠ 0
        · rw [if_pos hfirst, if_neg (by omega)]
          exact ih (.inl (Nat.lt_succ_self i))
        · rw [if_neg hfirst]
          exact ih (.inl (Nat.lt_succ_self i))

theorem filterFormat_eq_zero_iff :
    filterFormat path = 0 ↔ romfsMountpoint <+: path ∧ ∀ ch ∈ path, isPathCh ch = true := by
  unfold filterFormat
  rw [List.prefix_iff_eq_take]
  by_cases hmount : path.take romfsMountpoint.length ≠ romfsMountpoint
  · rw [if_pos hmount]
    exact ⟨fun h => absurd h (by decide), fun h => absurd h.1.symm hmount⟩
  · rw [if_neg hmount, filterLoop_eq_zero_iff (.inr ⟨rfl, rfl⟩)]
    exact ⟨fun h => ⟨(Decidable.not_not.mp hmount).symm, h⟩, fun h => h.2⟩

/-! ## The copies -/

theorem reaches_cons {p : Place} :
    Reaches img p (c :: names) path ↔
      (c = path ∧ names ≠ [] ∧ (p.enter img).isSome) ∨
        ∃ q, p.find img c = some q ∧ Reaches img q names path := by
  constructor
  · rintro ⟨before, after, q, hnames, hafter, hfold, henter⟩
    cases before with
    | nil =>
      obtain ⟨rfl, rfl⟩ := List.cons.inj hnames
      obtain rfl := Option.some.inj hfold
      exact .inl ⟨rfl, hafter, henter⟩
    | cons b before =>
      obtain ⟨rfl, rfl⟩ := List.cons.inj hnames
      rw [List.foldlM_cons, Option.bind_eq_bind, Option.bind_eq_some_iff] at hfold
      obtain ⟨r, hfind, hfold⟩ := hfold
      exact .inr ⟨r, hfind, before, after, q, rfl, hafter, hfold, henter⟩
  · rintro (⟨rfl, hnames, henter⟩ | ⟨r, hfind, before, after, q, rfl, hafter, hfold, henter⟩)
    · exact ⟨[], names, p, rfl, hnames, rfl, henter⟩
    · refine ⟨c :: before, after, q, rfl, hafter, ?_, henter⟩
      rw [List.foldlM_cons, hfind]
      exact hfold

theorem not_reaches_singleton {p : Place} : ¬ Reaches img p [c] path := by
  rw [reaches_cons]
  rintro (⟨-, hne, -⟩ | ⟨q, -, before, after, r, hnames, -⟩)
  · exact hne rfl
  · simp at hnames

theorem not_reaches_of_enter {p : Place} (h : p.enter img = none) : ¬ Reaches img p names path := by
  rintro ⟨before, after, q, rfl, -, hfold, henter⟩
  cases before with
  | nil =>
    obtain rfl := Option.some.inj hfold
    rw [h] at henter
    exact Bool.false_ne_true henter
  | cons b before =>
    rw [List.foldlM_cons, Place.find, h] at hfold
    cases hfold

/-- The lengths copied are those of the names in the middle that are reached. -/
theorem mem_middleCopies {fuel n : Nat} {p : Place} (hfuel : path.length < fuel) :
    n ∈ middleCopies img fuel path p.start p.stop p.needEnterChild ↔
      ∃ c, c.length = n ∧ Reaches img p (path.splitOn slash) c := by
  induction fuel generalizing path p with
  | zero => exact absurd hfuel (Nat.not_lt_zero _)
  | succ fuel ih =>
    rw [middleCopies]
    by_cases hnil : path = []
    · rw [if_pos hnil, hnil, List.splitOn_nil]
      refine iff_of_false List.not_mem_nil ?_
      rintro ⟨c, -, hreach⟩
      exact not_reaches_singleton hreach
    rw [if_neg hnil]
    by_cases hstay : (p.needEnterChild && p.start == direntChildaddr img p.start) = true
    · have hnone : p.enter img = none := if_pos hstay
      rw [if_pos hstay]
      refine iff_of_false List.not_mem_nil ?_
      rintro ⟨c, -, hreach⟩
      exact not_reaches_of_enter hnone hreach
    · have hsome : p.enter img =
          some (if p.needEnterChild then direntChildaddr img p.start else p.start) := if_neg hstay
      rw [if_neg hstay]
      rcases splitOn_slash path with ⟨hdrop, -, hsplit⟩ | ⟨ch, rest, hdrop, hlength, -, hsplit⟩
      · simp only [hdrop, hsplit]
        refine iff_of_false List.not_mem_nil ?_
        rintro ⟨c, -, hreach⟩
        exact not_reaches_singleton hreach
      · simp only [hdrop, hsplit, List.mem_cons, reaches_cons]
        have hrest := List.splitOn_ne_nil slash rest
        have hfind : p.find img (path.takeWhile (· != slash)) =
            match fileInfo img (path.takeWhile (· != slash))
              (if p.needEnterChild then direntChildaddr img p.start else p.start) p.stop with
            | .found start stop => some ⟨start, stop, true⟩
            | _ => none := by
          rw [Place.find, hsome, Option.bind_some]
        constructor
        · rintro (rfl | hmem)
          · exact ⟨_, rfl, .inl ⟨rfl, hrest, by rw [hsome]; rfl⟩⟩
          · split at hmem
            case h_1 start stop hinfo =>
              rw [hinfo] at hfind
              obtain ⟨c, hc, hreach⟩ := (@ih rest ⟨start, stop, true⟩ (by omega)).mp hmem
              exact ⟨c, hc, .inr ⟨_, hfind, hreach⟩⟩
            case h_2 => exact absurd hmem List.not_mem_nil
        · rintro ⟨c, rfl, ⟨rfl, -, -⟩ | ⟨q, hq, hreach⟩⟩
          · exact .inl rfl
          · right
            rw [hfind] at hq
            split at hq
            case h_1 start stop hinfo =>
              obtain rfl := Option.some.inj hq
              exact (@ih rest ⟨start, stop, true⟩ (by omega)).mpr ⟨c, rfl, hreach⟩
            case h_2 => cases hq

theorem mem_direntCopies {n : Nat} :
    n ∈ direntCopies img path ↔
      ∃ names c, pathNames path = some names ∧ c.length = n ∧
        Reaches img ⟨0, romfsEndaddr img, false⟩ names c := by
  unfold direntCopies pathNames
  by_cases hmount : path.take romfsMountpoint.length ≠ romfsMountpoint
  · rw [if_pos hmount, if_pos hmount]
    exact iff_of_false List.not_mem_nil fun ⟨_, _, h, _⟩ => by cases h
  · rw [if_neg hmount, if_neg hmount]
    rcases path.drop romfsMountpoint.length with - | ⟨ch, pName⟩
    · refine iff_of_false List.not_mem_nil ?_
      rintro ⟨names, c, h, -, before, after, q, hnames, -⟩
      obtain rfl := Option.some.inj h
      simp at hnames
    · dsimp only
      by_cases hslash : ch = slash
      · rw [if_neg (not_not_intro hslash), if_pos hslash]
        rw [@mem_middleCopies img pName _ n ⟨0, romfsEndaddr img, false⟩ (Nat.lt_succ_self _)]
        constructor
        · rintro ⟨c, hc, hreach⟩
          exact ⟨_, c, rfl, hc, hreach⟩
        · rintro ⟨names, c, h, hc, hreach⟩
          obtain rfl := Option.some.inj h
          exact ⟨c, hc, hreach⟩
      · rw [if_pos hslash, if_neg hslash]
        exact iff_of_false List.not_mem_nil fun ⟨_, _, h, _⟩ => by cases h

/-- The copies stay in the buffer unless a name that does not fit is reached. -/
theorem copies_fit_iff :
    (∀ n ∈ direntCopies img path, n ≤ nameBufferSize) ↔ ¬ LongReached img path := by
  constructor
  · rintro h ⟨names, c, hnames, hlong, hreach⟩
    have := h c.length (mem_direntCopies.mpr ⟨names, c, hnames, rfl, hreach⟩)
    omega
  · intro h n hn
    obtain ⟨names, c, hnames, rfl, hreach⟩ := mem_direntCopies.mp hn
    by_contra hlong
    exact h ⟨names, c, hnames, by omega, hreach⟩

/-- `"/romfs//a"`. -/
def doubleSlash : List UInt8 := romfsMountpoint ++ [slash, slash, 0x61]

/-- `"/romfs/aa...a/a"` with a name of 66 characters. -/
def longMiddle : List UInt8 := romfsMountpoint ++ slash :: List.replicate 66 0x61 ++ [slash, 0x61]

end BouffaloSdk.Romfs
