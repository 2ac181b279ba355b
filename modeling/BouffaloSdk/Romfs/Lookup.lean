import BouffaloSdk.Romfs.Layout
import Mathlib.Data.List.TakeWhile

/-!
# Path resolution

A path names an entry of the tree. `dirent_file` finds it, and nothing else,
as long as the path leads through directories: behind a regular file, whose
child word is 0, it starts again at the root.
-/

namespace BouffaloSdk.Romfs

/-! ## What a path names -/

/-- The entry that the names lead to. A last empty name, behind a slash at the
end, is the directory itself. -/
def walk : Entry → List (List UInt8) → Option Entry
  | e, [] => some e
  | .dir off name es, c :: cs =>
    if c = [] ∧ cs = [] then some (.dir off name es)
    else (es.find? (Entry.isNamed c)).bind fun e => walk e cs
  | .file .., _ :: _ => none
  | .link .., _ :: _ => none

/-- The names of a path behind the mount point, if it is one. -/
def pathNames (path : List UInt8) : Option (List (List UInt8)) :=
  if path.take romfsMountpoint.length ≠ romfsMountpoint then none
  else
    match path.drop romfsMountpoint.length with
    | [] => some []
    | ch :: rest => if ch = slash then some (rest.splitOn slash) else none

def lookup (volume : List UInt8) (entries : List Entry) (path : List UInt8) : Option Entry :=
  (pathNames path).bind (walk (.dir 0 volume entries))

/-! ## How the image is searched -/

/-- The first sibling of this name up to `stop`, with the place of the next. -/
def findFrom (c : List UInt8) (stop : Nat) : List Entry → Option (Entry × Nat)
  | [] => none
  | e :: es =>
    if e.isNamed c then some (e, nextOff es)
    else if nextOff es ≥ stop then none
    else findFrom c stop es

/-- The end of what belongs to an entry, as the search keeps it. -/
def Entry.stopAfter (e : Entry) (next stop : Nat) : Nat :=
  if e.type = .dir ∧ next = 0 then stop else next

/-- Where names are looked up behind an entry: in a directory, or at the root
again, where `seen` is what is found there. -/
def Entry.chain (seen : List Entry) : Entry → List Entry
  | .dir _ _ es => es
  | _ => seen

def replyOf (stop : Nat) (found : Option (Entry × Nat)) : Reply :=
  found.elim (.error (-1)) fun r => .found r.1.off (r.1.stopAfter r.2 stop)

/-- The search on the tree. -/
def crawl (seen : List Entry) : Entry → Nat → List (List UInt8) → Reply
  | e, stop, [] => .found e.off stop
  | e, stop, c :: cs =>
    if c = [] ∧ cs = [] then .found e.off stop
    else if romfsMaxNameLen < c.length then if cs = [] then .error (-1) else .stuck
    else (findFrom c stop (e.chain seen)).elim (.error (-1)) fun r =>
      crawl seen r.1 (r.1.stopAfter r.2 stop) cs

/-- The root entries that the search sees: none if it starts in padding. -/
def seen (img : Image) : List Entry → List Entry
  | [] => []
  | e :: es => if e.off = rootStart img then e :: es else []

variable {img : Image} {volume c : List UInt8} {entries es : List Entry} {e : Entry}
  {stop stop' : Nat}

/-- One header in the loop of `file_info`. -/
theorem fileInfoLoop_header {off next : Nat} {type : Romfh} {name : List UInt8}
    (header : Header img off next type name) (hname : NameOk name) (hc : ∀ ch ∈ c, ch ≠ 0)
    (htype : type ≠ .unknow) (fuel : Nat) :
    fileInfoLoop img c (fuel + 1) off stop =
      if type ≠ .hrd ∧ name = c then .found off (if type = .dir ∧ next = 0 then stop else next)
      else if next ≥ stop then .error (-1) else fileInfoLoop img c fuel next stop := by
  have hnamed := isNamed_iff header.chars header.ended hname.nonzero hc
  rw [fileInfoLoop, header.type_eq, header.hardfh, hnamed]
  cases type with
  | hrd => simp
  | dir => simp
  | reg => simp
  | unknow => exact absurd rfl htype

/-- Behind the last sibling the loop meets the image's own header. -/
theorem fileInfoLoop_end (hzero : direntType img 0 = .unknow) {fuel : Nat} (hfuel : 0 < fuel) :
    fileInfoLoop img c fuel 0 stop = .error (-1) := by
  cases fuel with
  | zero => exact absurd hfuel (Nat.lt_irrefl 0)
  | succ fuel => simp [fileInfoLoop, hzero]

theorem Entry.type_ne_unknow (e : Entry) : e.type ≠ .unknow := by
  cases e <;> exact Romfh.noConfusion

theorem Entry.isNamed_eq_true {e : Entry} : e.isNamed c = true ↔ e.type ≠ .hrd ∧ e.name = c := by
  rw [Entry.isNamed, Bool.and_eq_true, bne_iff_ne, beq_iff_eq]

/-- The loop of `file_info` over siblings. -/
theorem fileInfoLoop_eq (hzero : direntType img 0 = .unknow) (hlaid : Laid img stop' (e :: es))
    (hc : ∀ ch ∈ c, ch ≠ 0) {fuel : Nat} (hfuel : (e :: es).length < fuel) :
    fileInfoLoop img c fuel e.off stop = replyOf stop (findFrom c stop (e :: es)) := by
  induction es generalizing e fuel with
  | nil =>
    obtain ⟨fuel, rfl⟩ : ∃ k, fuel = k + 1 + 1 := ⟨fuel - 2, by simp at hfuel; omega⟩
    obtain ⟨header, hname, -, -, -⟩ := hlaid.cons
    rw [fileInfoLoop_header header hname hc e.type_ne_unknow, findFrom]
    by_cases hnamed : e.isNamed c = true
    · rw [if_pos (Entry.isNamed_eq_true.mp hnamed), if_pos hnamed]
      rfl
    · rw [if_neg (mt Entry.isNamed_eq_true.mpr hnamed), if_neg hnamed, nextOff,
        fileInfoLoop_end hzero (Nat.succ_pos _), ite_self, findFrom, ite_self]
      rfl
  | cons e' es ih =>
    obtain ⟨fuel, rfl⟩ : ∃ k, fuel = k + 1 := ⟨fuel - 1, by simp at hfuel; omega⟩
    obtain ⟨header, hname, -, -, hrest⟩ := hlaid.cons
    rw [fileInfoLoop_header header hname hc e.type_ne_unknow, findFrom]
    by_cases hnamed : e.isNamed c = true
    · rw [if_pos (Entry.isNamed_eq_true.mp hnamed), if_pos hnamed]
      rfl
    · rw [if_neg (mt Entry.isNamed_eq_true.mpr hnamed), if_neg hnamed]
      have hnext : nextOff (e' :: es) = e'.off := rfl
      by_cases hstop : nextOff (e' :: es) ≥ stop
      · rw [if_pos hstop, if_pos hstop]
        rfl
      · rw [if_neg hstop, if_neg hstop, hnext]
        exact ih hrest (by simpa using hfuel)

theorem fileInfo_eq (hzero : direntType img 0 = .unknow) (hlaid : Laid img stop' (e :: es))
    (hstop : stop' ≤ 2 ^ 32) (hc : ∀ ch ∈ c, ch ≠ 0) (hshort : c.length ≤ romfsMaxNameLen) :
    fileInfo img c e.off stop = replyOf stop (findFrom c stop (e :: es)) := by
  have hpos := hlaid.cons.2.2.1
  have hlength := hlaid.length_le
  unfold fileInfo
  rw [if_neg (Nat.not_lt.mpr hshort), if_neg (Nat.ne_of_gt hpos)]
  exact fileInfoLoop_eq hzero hlaid hc (by omega)

theorem WellFormed.seen_laid (h : WellFormed img volume entries) :
    Laid img (romfsEndaddr img) (seen img entries) := by
  cases entries with
  | nil => exact .nil
  | cons e es =>
    rw [seen]
    split
    · exact h.laid
    · exact .nil

theorem word_zero {addr : Nat} (h : ∀ i < 32, img (addr + i) = 0) : word img addr = 0 := by
  have h0 := h 0 (by decide)
  have h1 := h 1 (by decide)
  have h2 := h 2 (by decide)
  have h3 := h 3 (by decide)
  rw [Nat.add_zero] at h0
  unfold word
  rw [h0, h1, h2, h3]
  rfl

/-- Without an entry to see, the search at the root starts in padding. -/
theorem WellFormed.padding (h : WellFormed img volume entries) (hseen : seen img entries = []) :
    ∀ i < 32, img (rootStart img + i) = 0 := by
  have hroot := h.rootStart_eq
  rcases h.first with ⟨e, he, hoff⟩ | hzero
  · cases entries with
    | nil => exact absurd he (by simp)
    | cons e' es =>
      rw [List.head?_cons, Option.mem_some_iff] at he
      rw [seen, he, hoff, hroot, if_pos rfl] at hseen
      exact absurd hseen (List.cons_ne_nil _ _)
  · rw [hroot]
    exact hzero

/-- A search at the root skips its `.` and `..`. -/
theorem WellFormed.fileInfo_root (h : WellFormed img volume entries) (hc : ∀ ch ∈ c, ch ≠ 0)
    (hshort : c.length ≤ romfsMaxNameLen) :
    fileInfo img c 0 stop = replyOf stop (findFrom c stop (seen img entries)) := by
  have hroot := h.rootStart_eq
  have hpos : rootStart img ≠ 0 := by
    rw [hroot]
    omega
  have hstart : fileInfo img c 0 stop = fileInfo img c (rootStart img) stop := by
    unfold fileInfo
    rw [if_pos rfl, if_neg hpos]
  rw [hstart]
  have hend : romfsEndaddr img ≤ 2 ^ 32 := Nat.le_of_lt (word_lt img 8)
  rcases hseen : seen img entries with - | ⟨e, es⟩
  · have hword := word_zero (h.padding hseen)
    have htype : direntType img (rootStart img) = .hrd := by
      simp [direntType, hword]
    have hnext : direntHardfh img (rootStart img) = 0 := by
      simp [direntHardfh, hword]
    unfold fileInfo
    rw [if_neg (Nat.not_lt.mpr hshort), if_neg hpos, fileInfoLoop]
    simp only [htype, hnext]
    rw [fileInfoLoop_end h.type_zero (by omega)]
    simp [findFrom, replyOf]
  · have hlaid := h.seen_laid
    rw [hseen] at hlaid
    have hoff : e.off = rootStart img := by
      cases entries with
      | nil => simp [seen] at hseen
      | cons e' es' =>
        rw [seen] at hseen
        split at hseen
        · rename_i hfirst
          rw [List.cons.injEq] at hseen
          rw [← hseen.1, hfirst]
        · simp at hseen
    rw [← hoff]
    exact fileInfo_eq h.type_zero hlaid hend hc hshort

/-- An entry that is laid out somewhere in the image. -/
def Sits (img : Image) (e : Entry) : Prop :=
  ∃ stop es, Laid img stop (e :: es) ∧ stop ≤ 2 ^ 32

theorem Laid.sits (hlaid : Laid img stop es) (hstop : stop ≤ 2 ^ 32) (he : e ∈ es) :
    Sits img e := by
  induction es with
  | nil => exact absurd he List.not_mem_nil
  | cons e' es ih =>
    rcases List.mem_cons.mp he with rfl | hmem
    · exact ⟨stop, es, hlaid, hstop⟩
    · exact ih hlaid.cons.2.2.2.2 hmem

theorem findFrom_mem {r : Entry × Nat} (h : findFrom c stop es = some r) :
    r.1 ∈ es ∧ r.1.isNamed c = true := by
  induction es with
  | nil => exact absurd h (by simp [findFrom])
  | cons e es ih =>
    rw [findFrom] at h
    split at h
    · rename_i hnamed
      obtain rfl := Option.some.inj h
      exact ⟨List.mem_cons_self, hnamed⟩
    · split at h
      · exact absurd h (by simp)
      · obtain ⟨hmem, hnamed⟩ := ih h
        exact ⟨List.mem_cons_of_mem e hmem, hnamed⟩

/-- Behind a directory its children are searched, behind a file the root. -/
theorem Sits.looks (h : WellFormed img volume entries) (hsits : Sits img e)
    (hentry : e.type ≠ .hrd) :
    direntChildaddr img e.off ≠ e.off ∧
      (∀ c stop, (∀ ch ∈ c, ch ≠ 0) → c.length ≤ romfsMaxNameLen →
        fileInfo img c (direntChildaddr img e.off) stop =
          replyOf stop (findFrom c stop (e.chain (seen img entries)))) ∧
      ∀ e' ∈ e.chain (seen img entries), Sits img e' := by
  obtain ⟨stop', es, hlaid, hstop⟩ := hsits
  have hend : romfsEndaddr img ≤ 2 ^ 32 := Nat.le_of_lt (word_lt img 8)
  cases e with
  | link off name => exact absurd rfl hentry
  | file off name data =>
    have hpos := hlaid.cons.2.2.1
    have hchild : direntChildaddr img (Entry.file off name data).off = 0 := by
      cases hlaid with
      | file _ _ _ _ _ spec =>
        rw [direntChildaddr, Entry.off, spec]
    rw [hchild]
    exact ⟨Nat.ne_of_lt hpos, fun c stop hc hshort => h.fileInfo_root hc hshort,
      fun e' he' => h.seen_laid.sits hend he'⟩
  | dir off name children =>
    obtain ⟨child, rest, rfl, hlt, hchild, hinside⟩ := hlaid.children rfl
    have hboundary : boundary stop' es ≤ 2 ^ 32 := by
      cases es with
      | nil => exact hstop
      | cons e' es =>
        have := hlaid.cons.2.2.2.2.off_lt
        rw [boundary]
        omega
    refine ⟨?_, fun c stop hc hshort => ?_, fun e' he' => hinside.sits hboundary he'⟩
    · rw [Entry.off, hchild]
      exact Nat.ne_of_gt hlt
    · rw [Entry.off, hchild]
      exact fileInfo_eq h.type_zero hinside hboundary hc hshort

/-- The next name of a path and what is left behind its slash. -/
theorem splitOn_slash (p : List UInt8) :
    (p.dropWhile (· != slash) = [] ∧ p.takeWhile (· != slash) = p ∧ p.splitOn slash = [p]) ∨
      ∃ ch rest, p.dropWhile (· != slash) = ch :: rest ∧ rest.length < p.length ∧
        (∀ c ∈ rest, c ∈ p) ∧ p.splitOn slash = p.takeWhile (· != slash) :: rest.splitOn slash := by
  have hsplit := p.takeWhile_append_dropWhile (p := (· != slash))
  have htake : ∀ c ∈ p.takeWhile (· != slash), (c == slash) = false := by
    intro c hc
    have := List.mem_takeWhile_imp hc
    simpa using this
  rcases hdrop : p.dropWhile (· != slash) with - | ⟨ch, rest⟩
  · left
    rw [hdrop, List.append_nil] at hsplit
    refine ⟨rfl, hsplit, ?_⟩
    rw [hsplit] at htake
    exact List.splitOn_eq_singleton_of_beq_eq_false htake
  · right
    have hch : (ch == slash) = true := by
      have hhead := List.head_dropWhile_not (· != slash) (l := p) (by rw [hdrop]; simp)
      simp only [hdrop, List.head_cons] at hhead
      simpa using hhead
    rw [hdrop] at hsplit
    refine ⟨ch, rest, rfl, ?_, fun c hc => ?_, ?_⟩
    · have := congrArg List.length hsplit
      simp only [List.length_append, List.length_cons] at this
      omega
    · rw [← hsplit]
      exact List.mem_append_right _ (List.mem_cons_of_mem ch hc)
    · have hfirst := List.splitOnP_append_cons_of_forall_mem htake ch hch rest
      rw [hsplit] at hfirst
      exact hfirst

theorem crawl_cons {s : List Entry} {cs : List (List UInt8)} (h : ¬ (c = [] ∧ cs = [])) :
    crawl s e stop (c :: cs) =
      if romfsMaxNameLen < c.length then if cs = [] then .error (-1) else .stuck
      else (findFrom c stop (e.chain s)).elim (.error (-1)) fun r =>
        crawl s r.1 (r.1.stopAfter r.2 stop) cs := by
  rw [crawl, if_neg h]

/-- One name of the path. -/
theorem direntLoop_step {s : List Entry} {enter : Bool} {fuel : Nat} {p : List UInt8}
    (hmoves : enter = true → direntChildaddr img e.off ≠ e.off)
    (hlooks : ∀ c, (∀ ch ∈ c, ch ≠ 0) → c.length ≤ romfsMaxNameLen →
      fileInfo img c (if enter then direntChildaddr img e.off else e.off) stop =
        replyOf stop (findFrom c stop (e.chain s)))
    (hp : ∀ ch ∈ p, ch ≠ 0)
    (hrest : ∀ c r p', findFrom c stop (e.chain s) = some r → p'.length < p.length →
      (∀ ch ∈ p', ch ≠ 0) →
      direntLoop img fuel p' r.1.off (r.1.stopAfter r.2 stop) true =
        crawl s r.1 (r.1.stopAfter r.2 stop) (p'.splitOn slash)) :
    direntLoop img (fuel + 1) p e.off stop enter = crawl s e stop (p.splitOn slash) := by
  rw [direntLoop]
  by_cases hnil : p = []
  · rw [if_pos hnil, hnil, List.splitOn_nil, crawl, if_pos ⟨rfl, rfl⟩]
  · have hstay : ¬ (enter && e.off == direntChildaddr img e.off) = true := by
      rw [Bool.and_eq_true, beq_iff_eq]
      rintro ⟨henter, heq⟩
      exact hmoves henter heq.symm
    rw [if_neg hnil, if_neg hstay]
    rcases splitOn_slash p with ⟨hdrop, -, hsplit⟩ | ⟨ch, rest, hdrop, hlength, hmem, hsplit⟩
    · rw [hsplit, crawl_cons fun h => hnil h.1]
      simp only [hdrop]
      by_cases hlong : romfsMaxNameLen < p.length
      · rw [if_pos hlong, if_pos hlong, if_pos trivial]
      · rw [if_neg hlong, if_neg hlong, hlooks p hp (Nat.not_lt.mp hlong), replyOf]
        rfl
    · have hne := List.splitOn_ne_nil slash rest
      have hname : ∀ ch ∈ p.takeWhile (· != slash), ch ≠ 0 :=
        fun ch hch => hp ch ((List.takeWhile_sublist _).mem hch)
      rw [hsplit, crawl_cons fun h => hne h.2]
      simp only [hdrop]
      by_cases hlong : romfsMaxNameLen < (p.takeWhile (· != slash)).length
      · rw [if_pos hlong, if_pos hlong, if_neg hne]
      · rw [if_neg hlong, if_neg hlong, hlooks _ hname (Nat.not_lt.mp hlong), replyOf]
        rcases hfind : findFrom (p.takeWhile (· != slash)) stop (e.chain s) with - | r
        · rfl
        · exact hrest _ r rest hfind hlength fun ch hch => hp ch (hmem ch hch)

theorem Entry.isNamed_type {e : Entry} (h : e.isNamed c = true) : e.type ≠ .hrd :=
  (Entry.isNamed_eq_true.mp h).1

theorem direntLoop_eq (h : WellFormed img volume entries) (hsits : Sits img e)
    (hentry : e.type ≠ .hrd) {fuel : Nat} {p : List UInt8} (hfuel : p.length < fuel)
    (hp : ∀ ch ∈ p, ch ≠ 0) :
    direntLoop img fuel p e.off stop true = crawl (seen img entries) e stop (p.splitOn slash) := by
  induction fuel generalizing e stop p with
  | zero => exact absurd hfuel (Nat.not_lt_zero _)
  | succ fuel ih =>
    obtain ⟨hmoves, hlooks, hchain⟩ := hsits.looks h hentry
    refine direntLoop_step (fun _ => hmoves) (fun c hc hshort => hlooks c stop hc hshort) hp ?_
    intro c r p' hfind hlength hp'
    obtain ⟨hmem, hnamed⟩ := findFrom_mem hfind
    exact ih (hchain r.1 hmem) (Entry.isNamed_type hnamed) (by omega) hp'

/-- The whole search is the one on the tree. -/
theorem direntFile_eq (h : WellFormed img volume entries) {path : List UInt8}
    (hpath : ∀ ch ∈ path, ch ≠ 0) :
    direntFile img path = (pathNames path).elim (.error (-1))
      (crawl (seen img entries) (.dir 0 volume (seen img entries)) (romfsEndaddr img)) := by
  unfold direntFile pathNames
  by_cases hmount : path.take romfsMountpoint.length ≠ romfsMountpoint
  · rw [if_pos hmount, if_pos hmount]
    rfl
  · rw [if_neg hmount, if_neg hmount]
    have hdrop : ∀ ch ∈ path.drop romfsMountpoint.length, ch ≠ 0 :=
      fun ch hch => hpath ch (List.mem_of_mem_drop hch)
    rcases hrest : path.drop romfsMountpoint.length with - | ⟨ch, p⟩
    · rfl
    · rw [hrest] at hdrop
      dsimp only
      by_cases hslash : ch = slash
      · rw [if_neg (not_not_intro hslash), if_pos hslash, Option.elim_some]
        have hp : ∀ ch ∈ p, ch ≠ 0 := fun ch' hch' => hdrop ch' (List.mem_cons_of_mem ch hch')
        have hend : romfsEndaddr img ≤ 2 ^ 32 := Nat.le_of_lt (word_lt img 8)
        refine @direntLoop_step img (.dir 0 volume (seen img entries)) (romfsEndaddr img)
          (seen img entries) false p.length p (fun h => absurd h Bool.false_ne_true)
          (fun c hc hshort => h.fileInfo_root hc hshort) hp ?_
        intro c r p' hfind hlength hp'
        obtain ⟨hmem, hnamed⟩ := findFrom_mem hfind
        exact direntLoop_eq h (h.seen_laid.sits hend hmem) (Entry.isNamed_type hnamed) hlength hp'
      · rw [if_pos hslash, if_neg hslash]
        rfl

/-! ## Where the search finds what is named -/

/-- The search behind `e` gives the entry that the names lead to, or fails. -/
def Resolves (s : List Entry) (top e : Entry) (stop : Nat) (cs : List (List UInt8)) : Prop :=
  (∀ t, walk top cs = some t → ∃ stop', crawl s e stop cs = .found t.off stop') ∧
    (walk top cs = none → ∃ code, crawl s e stop cs = .error code)

/-- No middle name is longer than the array, and what is left of the path
behind a regular file leads nowhere when it is looked up from the root. -/
def Clear (s : List Entry) : Entry → Nat → List (List UInt8) → Prop
  | _, _, [] => True
  | .dir _ _ es, stop, c :: cs =>
    (c = [] ∧ cs = []) ∨
      ((cs ≠ [] → c.length ≤ romfsMaxNameLen) ∧
        ∀ r, findFrom c stop es = some r → Clear s r.1 (r.1.stopAfter r.2 stop) cs)
  | .file off name data, stop, c :: cs =>
    ∃ code, crawl s (.file off name data) stop (c :: cs) = .error code
  | .link off name, stop, c :: cs => ∃ code, crawl s (.link off name) stop (c :: cs) = .error code

/-- In front of their own end all siblings are searched. -/
theorem Laid.findFrom_eq (hlaid : Laid img stop es) :
    (findFrom c stop es).map Prod.fst = es.find? (Entry.isNamed c) := by
  induction es with
  | nil => rfl
  | cons e es ih =>
    have hrest := hlaid.cons.2.2.2.2
    rw [findFrom, List.find?_cons]
    by_cases hnamed : e.isNamed c = true
    · rw [if_pos hnamed, hnamed]
      rfl
    · rw [if_neg hnamed, Bool.not_eq_true] at *
      rw [hnamed]
      cases es with
      | nil => simp [findFrom]
      | cons e' es =>
        have hlt : ¬ nextOff (e' :: es) ≥ stop := Nat.not_le.mpr hrest.off_lt
        rw [if_neg hlt]
        exact ih hrest

/-- A sibling that is found, with those behind it. -/
theorem Laid.found (hlaid : Laid img stop' es) {r : Entry × Nat}
    (hfind : findFrom c stop es = some r) :
    ∃ rest, Laid img stop' (r.1 :: rest) ∧ r.2 = nextOff rest := by
  induction es with
  | nil => exact absurd hfind (by simp [findFrom])
  | cons e es ih =>
    rw [findFrom] at hfind
    split at hfind
    · obtain rfl := Option.some.inj hfind
      exact ⟨es, hlaid, rfl⟩
    · split at hfind
      · exact absurd hfind (by simp)
      · exact ih hlaid.cons.2.2.2.2 hfind

/-- The children of a directory lie in front of `stop`. -/
def Inside (img : Image) (stop : Nat) : Entry → Prop
  | .dir _ _ es => Laid img stop es
  | _ => True

theorem Laid.inside (hlaid : Laid img stop (e :: es)) :
    Inside img (e.stopAfter (nextOff es) stop) e := by
  cases e with
  | file off name data => trivial
  | link off name => trivial
  | dir off name children =>
    obtain ⟨child, rest, -, -, -, hinside⟩ := hlaid.children rfl
    have hstop : (Entry.dir off name children).stopAfter (nextOff es) stop = boundary stop es := by
      cases es with
      | nil => rfl
      | cons e' es =>
        have hpos := hlaid.cons.2.2.2.2.cons.2.2.1
        rw [Entry.stopAfter, nextOff, if_neg fun h => Nat.ne_of_gt hpos h.2, boundary]
    rw [hstop]
    exact hinside

theorem Laid.short (hlaid : Laid img stop' es) {r : Entry × Nat}
    (hfind : findFrom c stop es = some r) : c.length ≤ romfsMaxNameLen := by
  obtain ⟨-, hnamed⟩ := findFrom_mem hfind
  obtain ⟨rest, hfound, -⟩ := hlaid.found hfind
  rw [← (Entry.isNamed_eq_true.mp hnamed).2]
  exact hfound.cons.2.1.short

/-- Behind an entry that is laid out, the search resolves names if and only if
they are clear. -/
theorem resolves_iff_clear {s : List Entry} {cs : List (List UInt8)} (hinside : Inside img stop e)
    (hentry : e.type ≠ .hrd) : Resolves s e e stop cs ↔ Clear s e stop cs := by
  induction cs generalizing e stop with
  | nil =>
    refine ⟨fun _ => by cases e <;> trivial, fun _ => ⟨fun t ht => ?_, fun hnone => ?_⟩⟩
    · have hself : walk e [] = some e := by cases e <;> rfl
      rw [hself] at ht
      obtain rfl := Option.some.inj ht
      exact ⟨stop, by cases e <;> rfl⟩
    · have hself : walk e [] = some e := by cases e <;> rfl
      rw [hself] at hnone
      exact absurd hnone (by simp)
  | cons c cs ih =>
    cases e with
    | link off name => exact absurd rfl hentry
    | file off name data =>
      simp only [Resolves, Clear, walk]
      exact ⟨fun h => h.2 trivial, fun h => ⟨fun t ht => absurd ht (by simp), fun _ => h⟩⟩
    | dir off name es =>
      have hlaid : Laid img stop es := hinside
      have hfind := hlaid.findFrom_eq (c := c)
      simp only [Resolves, Clear, walk]
      by_cases htrailing : c = [] ∧ cs = []
      · simp only [if_pos htrailing]
        refine ⟨fun _ => .inl htrailing, fun _ => ⟨fun t ht => ?_, fun hnone => absurd hnone (by simp)⟩⟩
        obtain rfl := Option.some.inj ht
        exact ⟨stop, by rw [crawl, if_pos htrailing]⟩
      · simp only [if_neg htrailing, or_iff_right htrailing, crawl_cons htrailing]
        by_cases hlong : romfsMaxNameLen < c.length
        · have hnone : findFrom c stop es = none := by
            rcases hr : findFrom c stop es with - | r
            · rfl
            · exact absurd (hlaid.short hr) (Nat.not_le.mpr hlong)
          rw [hnone, Option.map_none] at hfind
          rw [← hfind, hnone, if_pos hlong]
          by_cases hlast : cs = []
          · simp [hlast]
          · simp [hlast, hlong]
        · rw [if_neg hlong]
          rcases hr : findFrom c stop es with - | r
          · rw [hr, Option.map_none] at hfind
            rw [← hfind]
            simp [Entry.chain, hr, Nat.not_lt.mp hlong]
          · obtain ⟨rest, hfound, hnext⟩ := hlaid.found hr
            obtain ⟨-, hnamed⟩ := findFrom_mem hr
            have hrest := ih (hnext ▸ hfound.inside) (Entry.isNamed_type hnamed)
            rw [hr, Option.map_some] at hfind
            rw [← hfind]
            simp only [Entry.chain, hr, Option.elim_some, Option.bind_some, Option.some.injEq,
              forall_eq', Nat.not_lt.mp hlong, implies_true, true_and]
            exact hrest

theorem Laid.stopAfter_le (hlaid : Laid img stop (e :: es)) :
    e.stopAfter (nextOff es) stop ≤ stop := by
  unfold Entry.stopAfter
  split
  · exact Nat.le_refl _
  · cases es with
    | nil => exact Nat.zero_le _
    | cons e' es => exact Nat.le_of_lt hlaid.cons.2.2.2.2.off_lt

/-- Where what belongs to the entry that the names lead to ends. -/
def walkStop : Entry → Nat → List (List UInt8) → Nat
  | .dir _ _ es, stop, c :: cs =>
    (findFrom c stop es).elim stop fun r => walkStop r.1 (r.1.stopAfter r.2 stop) cs
  | _, stop, _ => stop

/-- What is named in a tree without padding is found, with the end of its children. -/
theorem crawl_of_walk {s : List Entry} {cs : List (List UInt8)} (hinside : Inside img stop e)
    (hstop : stop ≤ 2 ^ 32) {t : Entry} (hwalk : walk e cs = some t) :
    crawl s e stop cs = .found t.off (walkStop e stop cs) ∧ Inside img (walkStop e stop cs) t ∧
      walkStop e stop cs ≤ 2 ^ 32 ∧ (t = e ∨ Sits img t) := by
  induction cs generalizing e stop with
  | nil =>
    have hself : walk e [] = some e := by cases e <;> rfl
    rw [hself] at hwalk
    obtain rfl := Option.some.inj hwalk
    have hend : walkStop e stop [] = stop := by cases e <;> rfl
    rw [hend]
    exact ⟨by cases e <;> rfl, hinside, hstop, .inl rfl⟩
  | cons c cs ih =>
    cases e with
    | file off name data => exact absurd hwalk (by simp [walk])
    | link off name => exact absurd hwalk (by simp [walk])
    | dir off name es =>
      have hlaid : Laid img stop es := hinside
      rw [walk] at hwalk
      by_cases htrailing : c = [] ∧ cs = []
      · rw [if_pos htrailing] at hwalk
        obtain rfl := Option.some.inj hwalk
        have hnone : findFrom c stop es = none := by
          rcases hr : findFrom c stop es with - | r
          · rfl
          · obtain ⟨rest, hfound, -⟩ := hlaid.found hr
            have hpos := hfound.cons.2.1.pos
            rw [(Entry.isNamed_eq_true.mp (findFrom_mem hr).2).2, htrailing.1] at hpos
            exact absurd hpos (by decide)
        rw [walkStop, hnone, crawl, if_pos htrailing]
        exact ⟨rfl, hinside, hstop, .inl rfl⟩
      · rw [if_neg htrailing, ← hlaid.findFrom_eq] at hwalk
        rw [crawl_cons htrailing, walkStop]
        rcases hr : findFrom c stop es with - | r
        · rw [hr] at hwalk
          exact absurd hwalk (by simp)
        · obtain ⟨rest, hfound, hnext⟩ := hlaid.found hr
          have hle := hfound.stopAfter_le
          rw [← hnext] at hle
          rw [hr, Option.map_some, Option.bind_some] at hwalk
          obtain ⟨hcrawl, hin, hbound, hwhere⟩ :=
            ih (hnext ▸ hfound.inside) (Nat.le_trans hle hstop) hwalk
          have hshort := hlaid.short hr
          rw [if_neg (Nat.not_lt.mpr hshort), Entry.chain, hr]
          refine ⟨hcrawl, hin, hbound, .inr ?_⟩
          rcases hwhere with rfl | hsits
          · exact ⟨stop, rest, hfound, hstop⟩
          · exact hsits

/-- `dirent_file` gives the header that the path names, and fails if it names
none. -/
def Named (img : Image) (volume : List UInt8) (entries : List Entry) (path : List UInt8) : Prop :=
  (∀ t, lookup volume entries path = some t → ∃ stop, direntFile img path = .found t.off stop) ∧
    (lookup volume entries path = none → ∃ code, direntFile img path = .error code)

theorem seen_cases (img : Image) (entries : List Entry) :
    seen img entries = entries ∨ seen img entries = [] ∧ entries ≠ [] := by
  cases entries with
  | nil => exact .inl rfl
  | cons e es =>
    rw [seen]
    split
    · exact .inl rfl
    · exact .inr ⟨rfl, List.cons_ne_nil e es⟩

/-- The names of the path are clear, and it leads to no entry if the root is
searched from padding on. -/
def PathClear (img : Image) (volume : List UInt8) (entries : List Entry) (path : List UInt8) :
    Prop :=
  ∀ names, pathNames path = some names →
    Clear (seen img entries) (.dir 0 volume (seen img entries)) (romfsEndaddr img) names ∧
      (seen img entries = entries ∨ names = [] ∨ names = [[]] ∨
        walk (.dir 0 volume entries) names = none)

theorem isPathCh_of_filterLoop {path : List UInt8} {i iOld : Nat}
    (h : filterLoop path i iOld = 0) : ∀ ch ∈ path, isPathCh ch = true := by
  induction path generalizing i iOld with
  | nil => exact fun ch hch => absurd hch List.not_mem_nil
  | cons ch path ih =>
    intro ch' hch'
    rw [filterLoop] at h
    by_cases hpath : isPathCh ch = false
    · rw [if_pos hpath] at h
      exact absurd h (by decide)
    · rw [if_neg hpath] at h
      rcases List.mem_cons.mp hch' with rfl | hmem
      · simpa using hpath
      · split at h
        · exact ih h ch' hmem
        · split at h
          · split at h
            · exact absurd h (by decide)
            · exact ih h ch' hmem
          · exact ih h ch' hmem

theorem nonzero_of_filterFormat {path : List UInt8} (h : filterFormat path = 0) :
    ∀ ch ∈ path, ch ≠ 0 := by
  intro ch hch hzero
  unfold filterFormat at h
  split at h
  · exact absurd h (by decide)
  · have hpath := isPathCh_of_filterLoop h ch hch
    rw [hzero] at hpath
    exact absurd hpath (by decide)

/-- A search that starts in padding finds the root and nothing else. -/
theorem crawl_padding {s : List Entry} {off : Nat} {name : List UInt8} {cs : List (List UInt8)}
    (h : ¬ (c = [] ∧ cs = [])) (t : Entry) :
    crawl s (.dir off name []) stop (c :: cs) ≠ .found t.off stop' := by
  rw [crawl_cons h]
  split
  · split <;> exact Reply.noConfusion
  · exact Reply.noConfusion

theorem resolves_padding {s : List Entry} {off : Nat} {name : List UInt8}
    {names : List (List UInt8)} :
    Resolves s (.dir off name entries) (.dir off name []) stop names ↔
      Resolves s (.dir off name []) (.dir off name []) stop names ∧
        (names = [] ∨ names = [[]] ∨ walk (.dir off name entries) names = none) := by
  have hroot : ∀ {names : List (List UInt8)}, names = [] ∨ names = [[]] → ∀ es : List Entry,
      walk (.dir off name es) names = some (.dir off name es) ∧
        crawl s (.dir off name []) stop names = .found off stop := by
    rintro names (rfl | rfl) es
    · exact ⟨rfl, rfl⟩
    · exact ⟨if_pos ⟨rfl, rfl⟩, if_pos ⟨rfl, rfl⟩⟩
  have hself : ∀ {names : List (List UInt8)}, names = [] ∨ names = [[]] → ∀ es : List Entry,
      Resolves s (.dir off name es) (.dir off name []) stop names := by
    intro names hnames es
    obtain ⟨hwalk, hcrawl⟩ := hroot hnames es
    refine ⟨fun t ht => ⟨stop, ?_⟩, fun hnone => ?_⟩
    · rw [hwalk] at ht
      obtain rfl := Option.some.inj ht
      exact hcrawl
    · rw [hwalk] at hnone
      exact absurd hnone (by simp)
  cases names with
  | nil => exact ⟨fun _ => ⟨hself (.inl rfl) [], .inl rfl⟩, fun _ => hself (.inl rfl) entries⟩
  | cons c cs =>
    by_cases htrailing : c = [] ∧ cs = []
    · obtain ⟨rfl, rfl⟩ := htrailing
      exact ⟨fun _ => ⟨hself (.inr rfl) [], .inr (.inl rfl)⟩, fun _ => hself (.inr rfl) entries⟩
    · have hempty : walk (.dir off name []) (c :: cs) = none := if_neg htrailing
      constructor
      · rintro ⟨hfound, hnone⟩
        have hwalk : walk (.dir off name entries) (c :: cs) = none := by
          rcases ht : walk (.dir off name entries) (c :: cs) with - | t
          · rfl
          · obtain ⟨stop', hcrawl⟩ := hfound t ht
            exact absurd hcrawl (crawl_padding htrailing t)
        refine ⟨⟨fun t ht => ?_, fun _ => hnone hwalk⟩, .inr (.inr hwalk)⟩
        rw [hempty] at ht
        exact absurd ht (by simp)
      · rintro ⟨⟨-, hnone⟩, hnames⟩
        have hwalk : walk (.dir off name entries) (c :: cs) = none := by
          rcases hnames with hnil | hslash | hwalk
          · exact absurd hnil (List.cons_ne_nil c cs)
          · rw [List.cons.injEq] at hslash
            exact absurd hslash htrailing
          · exact hwalk
        refine ⟨fun t ht => ?_, fun _ => hnone hempty⟩
        rw [hwalk] at ht
        exact absurd ht (by simp)

theorem named_iff_pathClear (h : WellFormed img volume entries) {path : List UInt8}
    (hpath : ∀ ch ∈ path, ch ≠ 0) :
    Named img volume entries path ↔ PathClear img volume entries path := by
  unfold Named PathClear lookup
  rw [direntFile_eq h hpath]
  rcases pathNames path with - | names
  · simp
  · simp only [Option.bind_some, Option.elim_some, Option.some.injEq, forall_eq']
    have hinside : Inside img (romfsEndaddr img) (.dir 0 volume (seen img entries)) := h.seen_laid
    have hclear := @resolves_iff_clear _ _ _ (seen img entries) names hinside
      (by exact Romfh.noConfusion)
    rcases seen_cases img entries with hseen | ⟨hnil, hne⟩
    · rw [hseen] at hclear ⊢
      simp only [true_or, and_true]
      exact hclear
    · rw [← hclear, hnil, or_iff_right (Ne.symm hne)]
      exact resolves_padding

/-- `"/romfs/d/b"`. -/
def samplePath : List UInt8 := romfsMountpoint ++ [slash, 0x64, slash, 0x62]

/-- `"/romfs/a/a"`, where `a` is a file. -/
def fileAsDirectory : List UInt8 := romfsMountpoint ++ [slash, 0x61, slash, 0x61]

end BouffaloSdk.Romfs
