import Mathlib.Algebra.Order.Ring.Nat
import Mathlib.Data.List.TakeWhile
import BouffaloSdk.Thread.OtHttpd

/-!
# Requests that the REST server reads

A request is its lines, an empty line and its body. Of the well-formed ones the parser reads
those that are plain, from the first buffer that holds the whole head.
-/

namespace BouffaloSdk.OtHttpd

open Kit.Search

/-- A request as it is meant; the headers are whole lines. -/
structure Request where
  method : Bytes
  uri : Bytes
  version : Bytes
  headers : List Bytes
  body : Bytes
  deriving DecidableEq

namespace Request

def line (r : Request) : Bytes := r.method ++ 32 :: (r.uri ++ 32 :: r.version)

def lines (r : Request) : List Bytes := r.line :: r.headers

end Request

def lineBytes (lines : List Bytes) : Bytes := lines.flatMap (· ++ crlf)

def Request.head (r : Request) : Bytes := lineBytes r.lines ++ crlf

def Request.encode (r : Request) : Bytes := r.head ++ r.body

/-! ## Well-formed requests -/

def isOws (b : UInt8) : Bool := b = 32 ∨ b = 9
def lower (b : UInt8) : UInt8 := if 65 ≤ b ∧ b ≤ 90 then b + 32 else b

def fieldName (line : Bytes) : Bytes := (line.takeWhile (· ≠ 58)).map lower

def fieldValue (line : Bytes) : Bytes := ((line.dropWhile (· ≠ 58)).drop 1).dropWhile isOws

def isContentLength (line : Bytes) : Bool := fieldName line = ascii "content-length"

/-- The number in a field, which may have blanks around it. -/
def lengthOf (line : Bytes) : Option Nat :=
  let digits := (fieldValue line).takeWhile isDigit
  if digits ≠ [] ∧ ((fieldValue line).drop digits.length).all isOws then some (decimal digits)
  else none

/-- The lines have names and no control characters, and the body is as long as they say. -/
structure WellFormed (r : Request) : Prop where
  visible : ∀ b ∈ r.method ++ r.uri ++ r.version, 32 < b
  method : r.method ≠ []
  uri : r.uri.head? = some 47
  printable : ∀ line ∈ r.headers, ∀ b ∈ line, b = 9 ∨ 32 ≤ b
  named : ∀ line ∈ r.headers, 58 ∈ line ∧ fieldName line ≠ [] ∧ ∀ b ∈ fieldName line, 32 < b
  length : ∀ line ∈ r.headers, isContentLength line → lengthOf line = some r.body.length
  body : r.body ≠ [] → ∃ line ∈ r.headers, isContentLength line

/-- A header line that the loop over the lines takes for a request line: it starts with the name
of a method, or a path follows its first space. -/
def misread (line : Bytes) : Bool :=
  32 ∈ line ∧ ((httpMethodList.any fun m => m.name.isPrefixOf line) ∨
    ((line.dropWhile (· ≠ 32)).drop 1).head? = some 47)

/-- What the parser relies on: a method of its list and a path of two bytes; the length spelled
as it looks for it, in less than eight bytes, and nowhere else; no header line that is misread,
and a space in the last; a body that is a string; and 16 bits for the whole. -/
structure Plain (r : Request) : Prop where
  method : ∃ m : HttpMethod, r.method = m.name
  uri : 1 < r.uri.length
  line : ¬ httpContentLen <:+: r.line
  spelled : ∀ line ∈ r.headers, isContentLength line →
    ∃ value, line = httpContentLen ++ value ∧ value.length < 8
  alone : ∀ line ∈ r.headers, isContentLength line = false → ¬ httpContentLen <:+: line
  read : ∀ line ∈ r.headers, misread line = false
  last : ∀ line ∈ r.headers.getLast?, 32 ∈ line
  body : 0 ∉ r.body
  short : r.encode.length < 2 ^ 16

/-- A line of a head. -/
structure Clean (line : Bytes) : Prop where
  ne_nil : line ≠ []
  no_zero : 0 ∉ line
  no_cr : 13 ∉ line

variable {r : Request} {line value part p q headerEnd : Bytes} {lines : List Bytes} {n fuel : Nat}

theorem WellFormed.clean (h : WellFormed r) (hmem : line ∈ r.lines) : Clean line := by
  rcases List.mem_cons.mp hmem with rfl | hheader
  · have hvisible (c : UInt8) (hc : c < 32) : c ∉ r.line := by
      intro hmem
      have hcases : c ∈ r.method ++ r.uri ++ r.version ∨ c = 32 := by
        simp only [Request.line, List.mem_append, List.mem_cons] at hmem ⊢
        tauto
      rcases hcases with hin | rfl
      · exact absurd (UInt8.lt_trans (h.visible c hin) hc) (UInt8.lt_irrefl _)
      · exact absurd hc (by decide)
    exact ⟨by simp [Request.line], hvisible 0 (by decide), hvisible 13 (by decide)⟩
  · have hprintable := h.printable line hheader
    refine ⟨?_, fun hmem => ?_, fun hmem => ?_⟩
    · rintro rfl
      exact absurd (h.named [] hheader).1 (by simp)
    · exact absurd (hprintable 0 hmem) (by decide)
    · exact absurd (hprintable 13 hmem) (by decide)

theorem httpContentLen_eq :
    httpContentLen = [67, 111, 110, 116, 101, 110, 116, 45, 76, 101, 110, 103, 116, 104, 58, 32] := rfl

/-! ## Where the head ends -/

@[simp] theorem length_crlf : crlf.length = 2 := rfl

theorem lineBytes_cons (line : Bytes) (lines : List Bytes) :
    lineBytes (line :: lines) = line ++ crlf ++ lineBytes lines := rfl

theorem length_le_lineBytes (lines : List Bytes) : 2 * lines.length ≤ (lineBytes lines).length := by
  induction lines with
  | nil => exact Nat.le_refl 0
  | cons line lines ih =>
    rw [lineBytes_cons, List.length_append, List.length_append, List.length_cons, length_crlf]
    omega

theorem toHeaderEnd_eq (p part : Bytes) :
    toHeaderEnd (p ++ crlf ++ part) (crlf ++ crlf ++ part) = p.length := by
  simp only [toHeaderEnd, List.length_append, length_crlf]
  omega

/-- The first empty line is the one after the lines. -/
theorem headerEnd_found (hne : lines ≠ []) (hclean : ∀ line ∈ lines, Clean line)
    (hn : (lineBytes lines ++ crlf).length ≤ n) :
    lwipStrnstr (lineBytes lines ++ crlf ++ part) (crlf ++ crlf) n =
      some (crlf ++ crlf ++ part) := by
  induction lines generalizing n with
  | nil => exact absurd rfl hne
  | cons line lines ih =>
    obtain ⟨-, hzero, hcr⟩ := hclean line List.mem_cons_self
    rw [lineBytes_cons] at hn ⊢
    simp only [List.length_append, length_crlf] at hn
    rw [lwipStrnstr, List.append_assoc, List.append_assoc, List.append_assoc]
    change search 0 (13 :: [10, 13, 10]) _ n = _
    rw [search_without hcr hzero]
    cases lines with
    | nil =>
      apply search_here (by simp) (by decide)
      · exact ⟨part, rfl⟩
      · change 4 ≤ _
        omega
    | cons second more =>
      have hsecond := hclean second (by simp)
      obtain ⟨b, second, rfl⟩ := List.exists_cons_of_ne_nil hsecond.ne_nil
      have hb : b ≠ 13 := fun heq => hsecond.no_cr (heq ▸ List.mem_cons_self)
      change search 0 [13, 10, 13, 10] (13 :: 10 :: b :: _) _ = _
      rw [search_cons (by simp) (by decide), search_cons (by simp) (by decide)]
      · have hlater := ih (by simp) (fun line hmem => hclean line (List.mem_cons_of_mem _ hmem))
          (n := n - line.length - 1 - 1) (by
            simp only [List.length_append, length_crlf]
            omega)
        rw [lwipStrnstr, List.append_assoc] at hlater
        exact hlater
      · intro htoken
        exact absurd (List.cons_prefix_cons.mp htoken).1 (by decide)
      · intro htoken
        have hthird := (List.cons_prefix_cons.mp (List.cons_prefix_cons.mp htoken).2).2
        exact hb (List.cons_prefix_cons.mp hthird).1.symm

/-! ## The length of the body -/

/-- A line break from the end of what it follows. -/
theorem crlf_found (hzero : 0 ∉ p) (hcr : 13 ∉ p) (hn : p.length + 2 ≤ n) (q : Bytes) :
    lwipStrnstr (p ++ crlf ++ q) crlf n = some (crlf ++ q) := by
  rw [lwipStrnstr, List.append_assoc]
  change search 0 (13 :: [10]) _ n = _
  rw [search_without hcr hzero]
  apply search_here (by simp) (by decide)
  · exact ⟨q, rfl⟩
  · change 2 ≤ _
    omega

theorem contentLength_end (part : Bytes) (fuel : Nat) (bodyLen : UInt32) :
    contentLength (crlf ++ crlf ++ part) (fuel + 1) (crlf ++ part) bodyLen = .ok bodyLen := by
  have hnone : lwipStrnstr (crlf ++ part) httpContentLen
      (toHeaderEnd (crlf ++ part) (crlf ++ crlf ++ part)) = none := by
    have hend := toHeaderEnd_eq [] part
    rw [List.nil_append] at hend
    rw [hend]
    exact search_short (by decide)
  rw [contentLength, hnone]

/-- A line without the text is passed over. -/
theorem contentLength_skip (hzero : 0 ∉ line) (hinside : ¬ httpContentLen <:+: line) (fuel : Nat)
    (q part : Bytes) (bodyLen : UInt32) :
    contentLength (crlf ++ crlf ++ part) (fuel + 1) (line ++ crlf ++ (q ++ crlf ++ part)) bodyLen =
      contentLength (crlf ++ crlf ++ part) (fuel + 1) (q ++ crlf ++ part) bodyLen := by
  have hsame : lwipStrnstr (line ++ crlf ++ (q ++ crlf ++ part)) httpContentLen
      (toHeaderEnd (line ++ crlf ++ (q ++ crlf ++ part)) (crlf ++ crlf ++ part)) =
      lwipStrnstr (q ++ crlf ++ part) httpContentLen
        (toHeaderEnd (q ++ crlf ++ part) (crlf ++ crlf ++ part)) := by
    have hend := toHeaderEnd_eq (line ++ crlf ++ q) part
    simp only [List.append_assoc] at hend
    rw [toHeaderEnd_eq]
    simp only [List.append_assoc, hend, lwipStrnstr]
    change search 0 httpContentLen (line ++ 13 :: (10 :: (q ++ (crlf ++ part)))) _ = _
    rw [search_separated (by decide) (by decide) hzero hinside,
      search_cons (by decide) (by decide), search_cons (by decide) (by decide)]
    · congr 1
      simp only [List.length_append, length_crlf]
      omega
    · intro htoken
      exact absurd (List.cons_prefix_cons.mp htoken).1 (by decide)
    · intro htoken
      exact absurd (List.cons_prefix_cons.mp htoken).1 (by decide)
  rw [contentLength, contentLength, hsame]

theorem contentLength_hit (hzero : 0 ∉ value) (hcr : 13 ∉ value) (hvalue : value.length < 8)
    (fuel : Nat) (q part : Bytes) (bodyLen : UInt32) :
    contentLength (crlf ++ crlf ++ part) (fuel + 1)
        (httpContentLen ++ value ++ crlf ++ (q ++ crlf ++ part)) bodyLen =
      contentLength (crlf ++ crlf ++ part) fuel (q ++ crlf ++ part) (UInt32.ofInt (atoi value)) := by
  have hend := toHeaderEnd_eq (httpContentLen ++ value ++ crlf ++ q) part
  have hfound : lwipStrnstr (httpContentLen ++ value ++ crlf ++ (q ++ crlf ++ part)) httpContentLen
      (toHeaderEnd (httpContentLen ++ value ++ crlf ++ (q ++ crlf ++ part)) (crlf ++ crlf ++ part)) =
      some (httpContentLen ++ value ++ crlf ++ (q ++ crlf ++ part)) := by
    apply search_here (by decide) (by decide)
    · exact ⟨value ++ crlf ++ (q ++ crlf ++ part), by simp only [List.append_assoc]⟩
    · simp only [List.append_assoc] at hend ⊢
      rw [hend]
      simp only [List.length_append]
      omega
  have hvalueEnd := toHeaderEnd_eq (value ++ crlf ++ q) part
  have hbreak : lwipStrnstr (value ++ crlf ++ (q ++ crlf ++ part)) crlf
      (toHeaderEnd (value ++ crlf ++ (q ++ crlf ++ part)) (crlf ++ crlf ++ part)) =
      some (crlf ++ (q ++ crlf ++ part)) := by
    apply crlf_found hzero hcr
    simp only [List.append_assoc] at hvalueEnd ⊢
    rw [hvalueEnd]
    simp only [List.length_append, length_crlf]
    omega
  have hdrop : (httpContentLen ++ value ++ crlf ++ (q ++ crlf ++ part)).drop httpContentLen.length =
      value ++ crlf ++ (q ++ crlf ++ part) := by
    simp only [List.append_assoc, List.drop_left]
  have hlen : (value ++ crlf ++ (q ++ crlf ++ part)).length - (crlf ++ (q ++ crlf ++ part)).length =
      value.length := by
    simp only [List.length_append]
    omega
  have htake : (value ++ crlf ++ (q ++ crlf ++ part)).take value.length = value := by
    simp only [List.append_assoc, List.take_left]
  rw [contentLength, hfound]
  dsimp only
  rw [hdrop, hbreak]
  dsimp only
  rw [hlen, if_pos hvalue, htake]
  rfl

/-- Behind blanks that are skipped the digits are read. -/
theorem atoi_of_digits (h : (value.dropWhile isOws).takeWhile isDigit ≠ []) :
    atoi value = decimal ((value.dropWhile isOws).takeWhile isDigit) := by
  have hspace : value.dropWhile isSpace = value.dropWhile isOws := by
    induction value with
    | nil => rfl
    | cons b value ih =>
      by_cases hows : isOws b
      · have hb : isSpace b := by
          simp only [isOws, decide_eq_true_eq] at hows
          rcases hows with rfl | rfl <;> rfl
        rw [List.dropWhile_cons_of_pos hows] at h ⊢
        rw [List.dropWhile_cons_of_pos hb, ih h]
      · rw [List.dropWhile_cons_of_neg hows] at h ⊢
        refine List.dropWhile_cons_of_neg fun hb => h ?_
        rw [List.takeWhile_cons_of_neg]
        simp only [isSpace, isDigit, decide_eq_true_eq] at hb ⊢
        intro hdigit
        have hle := UInt8.le_iff_toNat_le.mp hdigit.1
        rcases hb with rfl | hb
        · exact absurd hle (by decide)
        · have hle' := UInt8.le_iff_toNat_le.mp hb.2
          exact absurd (Nat.le_trans hle hle') (by decide)
  rw [atoi, hspace]
  split
  · rename_i t heq
    rw [heq] at h
    exact absurd rfl h
  · rename_i t heq
    rw [heq] at h
    exact absurd rfl h
  · rfl

theorem fieldValue_spelled (value : Bytes) :
    fieldValue (httpContentLen ++ value) = value.dropWhile isOws := rfl

/-- A spelled length is what the parser reads. -/
theorem spelled_length (hlength : lengthOf (httpContentLen ++ value) = some n) :
    UInt32.ofInt (atoi value) = UInt32.ofNat n := by
  rw [lengthOf, fieldValue_spelled] at hlength
  split at hlength
  · rename_i hdigits
    rw [atoi_of_digits hdigits.1, Option.some.inj hlength]
    exact UInt32.intCast_ofNat n
  · cases hlength

/-- The last length that the lines say, or the one from before. -/
theorem contentLength_lines {length : Nat} (hclean : ∀ line ∈ lines, Clean line)
    (hlength : ∀ line ∈ lines, isContentLength line → lengthOf line = some length)
    (hspelled : ∀ line ∈ lines, isContentLength line →
      ∃ value, line = httpContentLen ++ value ∧ value.length < 8)
    (halone : ∀ line ∈ lines, isContentLength line = false → ¬ httpContentLen <:+: line)
    (hfuel : lines.length < fuel) (part : Bytes) (bodyLen : UInt32) :
    contentLength (crlf ++ crlf ++ part) fuel (lineBytes lines ++ crlf ++ part) bodyLen =
      .ok (if lines.any isContentLength then UInt32.ofNat length else bodyLen) := by
  induction lines generalizing fuel bodyLen with
  | nil =>
    obtain ⟨fuel, rfl⟩ := Nat.exists_eq_add_of_lt hfuel
    exact contentLength_end part _ bodyLen
  | cons line lines ih =>
    obtain ⟨fuel, rfl⟩ : ∃ m, fuel = m + 1 := ⟨fuel - 1, by omega⟩
    have hline := hclean line List.mem_cons_self
    have hlater := fun l (hl : l ∈ lines) => List.mem_cons_of_mem line hl
    have ih' := fun m (hm : lines.length < m) => ih (fun l hl => hclean l (hlater l hl))
      (fun l hl => hlength l (hlater l hl)) (fun l hl => hspelled l (hlater l hl))
      (fun l hl => halone l (hlater l hl)) hm
    rw [List.length_cons] at hfuel
    have hsplit : lineBytes (line :: lines) ++ crlf ++ part =
        line ++ crlf ++ (lineBytes lines ++ crlf ++ part) := by
      simp only [lineBytes_cons, List.append_assoc]
    rw [hsplit, List.any_cons]
    by_cases his : isContentLength line
    · obtain ⟨value, rfl, hvalue⟩ := hspelled line List.mem_cons_self his
      have hin := fun c (hc : c ∈ value) => List.mem_append_right httpContentLen hc
      rw [contentLength_hit (fun h => hline.no_zero (hin 0 h)) (fun h => hline.no_cr (hin 13 h)) hvalue,
        spelled_length (hlength _ List.mem_cons_self his), ih' fuel (by omega)]
      simp [his]
    · have hfalse : isContentLength line = false := Bool.eq_false_iff.mpr his
      rw [contentLength_skip hline.no_zero (halone line List.mem_cons_self hfalse), ih' _ (by omega)]
      simp [hfalse]

/-! ## The lines -/

/-- A zero after the line: its first space, or none. -/
theorem space_found (hzero : 0 ∉ line) (hspace : 32 ∉ line) (rest after : Bytes) :
    lwipStrnstr (line ++ 32 :: rest ++ 0 :: after) [32] (line ++ 32 :: rest).length =
      some (32 :: rest ++ 0 :: after) := by
  rw [lwipStrnstr, List.append_assoc, search_without hspace hzero]
  apply search_here (by simp) (by decide)
  · exact ⟨rest ++ 0 :: after, rfl⟩
  · simp only [List.length_append, List.length_cons, List.length_nil]
    omega

theorem space_missing (hspace : 32 ∉ line) (after : Bytes) :
    lwipStrnstr (line ++ 0 :: after) [32] n = none := by
  rw [lwipStrnstr]
  induction line generalizing n with
  | nil => simp [search]
  | cons b line ih =>
    have hb : ¬ [32] <+: b :: (line ++ 0 :: after) := by
      intro htoken
      exact hspace ((List.cons_prefix_cons.mp htoken).1 ▸ List.mem_cons_self)
    by_cases hzero : b = 0
    · rw [List.cons_append, search, if_pos (.inl hzero)]
    · rw [List.cons_append, search_cons (by simp) hzero hb,
        ih (fun hmem => hspace (List.mem_cons_of_mem b hmem))]

theorem HttpMethod.zero_not_mem_name (m : HttpMethod) : 0 ∉ m.name := by
  cases m <;> decide

/-- Which method stands first is seen in the line. -/
theorem name_isPrefixOf (m : HttpMethod) (line after : Bytes) :
    m.name.isPrefixOf (line ++ 0 :: after) = m.name.isPrefixOf line := by
  rw [Bool.eq_iff_iff, List.isPrefixOf_iff_prefix, List.isPrefixOf_iff_prefix]
  constructor
  · exact isPrefix_of_separated m.zero_not_mem_name
  · exact fun h => h.trans (List.prefix_append _ _)

/-- A line that is not misread leaves the method, the path and where the headers start. -/
theorem parseLine_kept (hline : Clean line) (hread : misread line = false) (after : Bytes)
    (st : LineState) :
    ∃ sp1 left, parseLine line after st = ({ st with sp1 }, left) ∧
      (32 ∈ line → sp1.isSome = true) := by
  by_cases hspace : 32 ∈ line
  · have hkept : ¬ ((httpMethodList.any fun m => m.name.isPrefixOf line) = true ∨
        ((line.dropWhile (· ≠ 32)).drop 1).head? = some 47) := by
      intro hbad
      have htrue : misread line = true := decide_eq_true ⟨hspace, hbad⟩
      rw [hread] at htrue
      cases htrue
    obtain ⟨hmethod, hpath⟩ := not_or.mp hkept
    have hfind : httpMethodList.find? (fun m => m.name.isPrefixOf (line ++ 0 :: after)) = none := by
      rw [List.find?_eq_none]
      intro m hm hprefixed
      rw [name_isPrefixOf] at hprefixed
      exact hmethod (List.any_eq_true.mpr ⟨m, hm, hprefixed⟩)
    obtain ⟨name, rest, rfl, hname⟩ := List.eq_append_cons_of_mem hspace
    have hzero : 0 ∉ name := fun hmem => hline.no_zero (List.mem_append_left _ hmem)
    have hrest : (name ++ 32 :: rest).dropWhile (· ≠ 32) = 32 :: rest := by
      rw [List.dropWhile_append_of_pos]
      · rfl
      · intro b hb
        exact decide_eq_true fun heq => hname (heq ▸ hb)
    have hhead : (rest ++ 0 :: after).head? ≠ some 47 := by
      rw [hrest] at hpath
      cases rest with
      | nil => exact fun h => absurd (Option.some.inj h) (by decide)
      | cons b rest => exact hpath
    refine ⟨some (32 :: rest ++ 0 :: after), name ++ 32 :: rest, ?_, fun _ => rfl⟩
    rw [parseLine, space_found hzero hname]
    dsimp only
    rw [hfind]
    exact if_neg hhead
  · rw [parseLine, space_missing hspace]
    exact ⟨none, line, rfl, fun h => absurd h hspace⟩

theorem cString_eq {s : Bytes} (h : 0 ∉ s) : cString s = s := by
  apply List.takeWhile_eq_self_iff.mpr
  intro b hb
  exact decide_eq_true fun heq => h (heq ▸ hb)

/-- The request line gives the method and the path. -/
theorem parseLine_request (h : WellFormed r) {m : HttpMethod} (hmethod : r.method = m.name)
    (huri : 1 < r.uri.length) (after : Bytes) :
    ∃ sp1 left, parseLine r.line after lineStart =
      (⟨some m, some r.uri, some (after.length - 1), some sp1⟩, left) := by
  have hvisible (c : UInt8) (hc : c ≤ 32) : c ∉ r.method ∧ c ∉ r.uri := by
    constructor
    · intro hmem
      exact absurd (UInt8.lt_of_lt_of_le (h.visible c (by simp [hmem])) hc) (UInt8.lt_irrefl _)
    · intro hmem
      exact absurd (UInt8.lt_of_lt_of_le (h.visible c (by simp [hmem])) hc) (UInt8.lt_irrefl _)
  have hzero := hvisible 0 (by decide)
  have hspace := hvisible 32 (by decide)
  have hfind : httpMethodList.find? (fun m => m.name.isPrefixOf (r.line ++ 0 :: after)) = some m := by
    rw [Request.line, hmethod]
    cases m <;> rfl
  have hfirst : lwipStrnstr (r.line ++ 0 :: after) [32] r.line.length =
      some (32 :: (r.uri ++ 32 :: r.version) ++ 0 :: after) := space_found hzero.1 hspace.1 _ after
  have hrest : (32 :: (r.uri ++ 32 :: r.version) ++ 0 :: after).drop 1 =
      r.uri ++ 32 :: r.version ++ 0 :: after := rfl
  have hslash : (r.uri ++ 32 :: r.version ++ 0 :: after).head? = some 47 := by
    have hhead := h.uri
    cases huri' : r.uri with
    | nil => rw [huri'] at huri; exact absurd huri (by decide)
    | cons b t => rw [huri'] at hhead; exact hhead
  have hlen : (r.uri ++ 32 :: r.version ++ 0 :: after).length - (0 :: after).length =
      (r.uri ++ 32 :: r.version).length := by
    rw [List.length_append]
    omega
  have hsecond := space_found hzero.2 hspace.2 r.version after
  have huriLen : (r.uri ++ 32 :: r.version ++ 0 :: after).length -
      (32 :: r.version ++ 0 :: after).length = r.uri.length := by
    simp only [List.length_append, List.length_cons]
    omega
  have htake : (r.uri ++ 32 :: r.version ++ 0 :: after).take r.uri.length = r.uri := by
    rw [List.append_assoc, List.take_left]
  rw [parseLine, hfirst]
  dsimp only
  rw [hrest, if_pos hslash, hfind, hlen, hsecond]
  dsimp only [Option.getD]
  rw [if_pos (by rw [huriLen]; exact huri), huriLen, htake, cString_eq hzero.2]
  exact ⟨_, _, rfl⟩

/-- One line, up to where the next may start. -/
theorem parseLines_line {st st' : LineState} {left : Bytes} (hline : Clean line)
    (hparse : parseLine line (10 :: (q ++ crlf ++ part)) st = (st', left)) (fuel : Nat) :
    parseLines (crlf ++ crlf ++ part) (fuel + 1) (line ++ crlf ++ (q ++ crlf ++ part)) st =
      if 2 < q.length then
        (parseLines (crlf ++ crlf ++ part) fuel (q ++ crlf ++ part) st').map fun result =>
          (result.1, left ++ 0 :: 10 :: result.2)
      else .ok (st', left ++ 0 :: 10 :: (q ++ crlf ++ part)) := by
  have hbreak : lwipStrnstr (line ++ crlf ++ (q ++ crlf ++ part)) crlf
      (toHeaderEnd (line ++ crlf ++ (q ++ crlf ++ part)) (crlf ++ crlf ++ part)) =
      some (crlf ++ (q ++ crlf ++ part)) := by
    apply crlf_found hline.no_zero hline.no_cr
    have hend := toHeaderEnd_eq (line ++ crlf ++ q) part
    simp only [List.append_assoc] at hend ⊢
    rw [hend, List.length_append, List.length_append, length_crlf]
    omega
  have htake : (line ++ crlf ++ (q ++ crlf ++ part)).take
      ((line ++ crlf ++ (q ++ crlf ++ part)).length - (crlf ++ (q ++ crlf ++ part)).length) = line := by
    rw [List.append_assoc, List.length_append, Nat.add_sub_cancel, List.take_left]
  have hnewline : (crlf ++ (q ++ crlf ++ part)).drop 1 = 10 :: (q ++ crlf ++ part) := rfl
  have hnext : (crlf ++ (q ++ crlf ++ part)).drop 2 = q ++ crlf ++ part := rfl
  have hmore : (crlf ++ crlf ++ part).length < (q ++ crlf ++ part).length ↔ 2 < q.length := by
    simp only [List.length_append, length_crlf]
    omega
  rw [parseLines, hbreak]
  dsimp only
  rw [htake, hnewline, hparse, hnext]
  by_cases hq : 2 < q.length
  · rw [if_pos (hmore.mpr hq), if_pos hq]
    cases parseLines (crlf ++ crlf ++ part) fuel (q ++ crlf ++ part) st' <;> rfl
  · rw [if_neg (fun h => hq (hmore.mp h)), if_neg hq]

theorem two_lt_lineBytes (hline : line ≠ []) (lines : List Bytes) :
    2 < (lineBytes (line :: lines)).length := by
  have hpos := List.length_pos_iff.mpr hline
  rw [lineBytes_cons, List.length_append, List.length_append, length_crlf]
  omega

/-- The lines of the headers leave what the request line gave. -/
theorem parseLines_headers (hne : lines ≠ []) (hclean : ∀ line ∈ lines, Clean line)
    (hread : ∀ line ∈ lines, misread line = false) (hfuel : lines.length ≤ fuel) (part : Bytes)
    (st : LineState) :
    ∃ sp1 buffer, parseLines (crlf ++ crlf ++ part) fuel (lineBytes lines ++ crlf ++ part) st =
        .ok ({ st with sp1 }, buffer) ∧
      ((∀ line ∈ lines.getLast?, 32 ∈ line) → sp1.isSome = true) := by
  induction lines generalizing fuel st with
  | nil => exact absurd rfl hne
  | cons line lines ih =>
    rw [List.length_cons] at hfuel
    obtain ⟨fuel, rfl⟩ : ∃ m, fuel = m + 1 := ⟨fuel - 1, by omega⟩
    have hline := hclean line List.mem_cons_self
    have hsplit : lineBytes (line :: lines) ++ crlf ++ part =
        line ++ crlf ++ (lineBytes lines ++ crlf ++ part) := by
      simp only [lineBytes_cons, List.append_assoc]
    obtain ⟨sp1, left, hparse, hspace⟩ := parseLine_kept hline (hread line List.mem_cons_self)
      (10 :: (lineBytes lines ++ crlf ++ part)) st
    rw [hsplit, parseLines_line hline hparse]
    cases lines with
    | nil =>
      exact ⟨sp1, _, if_neg (by decide), fun hlast => hspace (hlast line rfl)⟩
    | cons second more =>
      have hlater := fun l (hl : l ∈ second :: more) => List.mem_cons_of_mem line hl
      obtain ⟨sp1', buffer, hrest, hlast⟩ := ih (by simp) (fun l hl => hclean l (hlater l hl))
        (fun l hl => hread l (hlater l hl)) (by omega : (second :: more).length ≤ fuel)
        { st with sp1 }
      rw [if_pos (two_lt_lineBytes (hclean second (hlater second List.mem_cons_self)).ne_nil more),
        hrest]
      refine ⟨sp1', _, rfl, fun h => hlast fun l hl => h l ?_⟩
      rwa [List.getLast?_cons_cons]

/-- The lines of a request. -/
theorem parseLines_request (h : WellFormed r) (hplain : Plain r) {m : HttpMethod}
    (hmethod : r.method = m.name) (hfuel : r.lines.length ≤ fuel) (part : Bytes) :
    ∃ start sp1 buffer,
      parseLines (crlf ++ crlf ++ part) fuel (lineBytes r.lines ++ crlf ++ part) lineStart =
        .ok (⟨some m, some r.uri, some start, some sp1⟩, buffer) := by
  rw [Request.lines, List.length_cons] at hfuel
  obtain ⟨fuel, rfl⟩ : ∃ n, fuel = n + 1 := ⟨fuel - 1, by omega⟩
  have hclean : Clean r.line := h.clean List.mem_cons_self
  have hsplit : lineBytes r.lines ++ crlf ++ part =
      r.line ++ crlf ++ (lineBytes r.headers ++ crlf ++ part) := by
    simp only [Request.lines, lineBytes_cons, List.append_assoc]
  obtain ⟨sp1, left, hparse⟩ := parseLine_request h hmethod hplain.uri
    (10 :: (lineBytes r.headers ++ crlf ++ part))
  rw [hsplit, parseLines_line hclean hparse]
  cases hheaders : r.headers with
  | nil => exact ⟨_, _, _, if_neg (by decide)⟩
  | cons second more =>
    have hin := fun l (hl : l ∈ second :: more) => (hheaders ▸ hl : l ∈ r.headers)
    rw [hheaders] at hfuel
    obtain ⟨sp1', buffer, hrest, hlast⟩ := parseLines_headers (List.cons_ne_nil second more)
      (fun l hl => h.clean (List.mem_cons_of_mem _ (hin l hl)))
      (fun l hl => hplain.read l (hin l hl)) (by omega : (second :: more).length ≤ fuel) part
      ⟨some m, some r.uri, some ((10 :: (lineBytes r.headers ++ crlf ++ part)).length - 1), some sp1⟩
    obtain ⟨last, rfl⟩ := Option.isSome_iff_exists.mp (hlast (hheaders ▸ hplain.last))
    rw [hheaders] at hrest
    have hsecond := h.clean (List.mem_cons_of_mem _ (hin second List.mem_cons_self))
    rw [if_pos (two_lt_lineBytes hsecond.ne_nil more), hrest]
    exact ⟨_, last, _, rfl⟩

/-- With a pointer to search from the loop over the strings does not fail. -/
theorem parseHeaders_isSome (headerEnd sp1 : Bytes) (fuel : Nat) (ptr : Bytes) (keepalive : Bool)
    (accept : HttpAccept) :
    ∃ keepalive' accept',
      parseHeaders headerEnd (some sp1) fuel ptr keepalive accept = some (keepalive', accept') := by
  induction fuel generalizing ptr keepalive accept with
  | zero => exact ⟨keepalive, accept, rfl⟩
  | succ fuel ih =>
    rw [parseHeaders]
    dsimp only [Option.map]
    split
    · rename_i hnone
      split at hnone <;> cases hnone
    · split
      · exact ih _ _ _
      · exact ⟨_, _, rfl⟩

/-! ## The whole buffer -/

theorem head_eq (r : Request) (part : Bytes) :
    r.head ++ part = r.line ++ crlf ++ (lineBytes r.headers ++ crlf ++ part) := by
  simp only [Request.head, Request.lines, lineBytes_cons, List.append_assoc]

theorem two_lt_line (hplain : Plain r) : 2 < r.line.length := by
  have huri := hplain.uri
  rw [Request.line, List.length_append, List.length_cons, List.length_append, List.length_cons]
  omega

theorem length_encode (r : Request) : r.encode.length = r.head.length + r.body.length :=
  List.length_append

/-- The length of the body, from any buffer with the whole head. -/
theorem contentLength_request (h : WellFormed r) (hplain : Plain r) (part : Bytes) :
    contentLength (crlf ++ crlf ++ part) (r.head ++ part).length ((r.head ++ part).drop 2) 0 =
      .ok (UInt32.ofNat r.body.length) := by
  have hline : Clean r.line := h.clean List.mem_cons_self
  have hlong := two_lt_line hplain
  have hdrop : (r.head ++ part).drop 2 =
      r.line.drop 2 ++ crlf ++ (lineBytes r.headers ++ crlf ++ part) := by
    rw [head_eq, List.append_assoc, List.drop_append_of_le_length (by omega), ← List.append_assoc]
  have hcount := length_le_lineBytes r.headers
  have hlen : (r.head ++ part).length =
      r.line.length + 2 + ((lineBytes r.headers).length + 2 + part.length) := by
    rw [head_eq]
    simp only [List.length_append, length_crlf]
  obtain ⟨fuel, hfuel⟩ : ∃ fuel, (r.head ++ part).length = fuel + 1 :=
    ⟨(r.head ++ part).length - 1, by omega⟩
  rw [hdrop, hfuel, contentLength_skip]
  · rw [contentLength_lines (fun l hl => h.clean (List.mem_cons_of_mem _ hl)) h.length hplain.spelled
      hplain.alone (by omega)]
    split
    · rfl
    · rename_i hnone
      have hbody : r.body = [] := by
        by_contra hne
        obtain ⟨l, hl, his⟩ := h.body hne
        exact hnone (List.any_eq_true.mpr ⟨l, hl, his⟩)
      rw [hbody]
      rfl
  · exact fun hmem => hline.no_zero (List.mem_of_mem_drop hmem)
  · exact fun hinside => hplain.line (hinside.trans (List.drop_suffix 2 r.line).isInfix)

/-- The buffer has the whole head and no more than the body: what the parser looks at first. -/
theorem parseBuffer_eq (h : WellFormed r) (hplain : Plain r) {m : HttpMethod}
    (hmethod : r.method = m.name) (hpart : part.length ≤ r.body.length) :
    ∃ accept keepalive,
      parseBuffer (r.head ++ part) =
        if part.length < r.body.length then .inProgress (UInt16.ofNat r.encode.length)
        else .request
          ⟨m, accept, r.uri, if r.body = [] then none else some (cString part)⟩
          (UInt16.ofNat r.encode.length) keepalive := by
  have hlong := two_lt_line hplain
  have hcount := length_le_lineBytes r.lines
  have hshort := hplain.short
  rw [length_encode] at hshort
  have hlen : (r.head ++ part).length = r.head.length + part.length := List.length_append
  have hheadLen : r.head.length = (lineBytes r.lines).length + 2 := List.length_append
  have hlines : 5 ≤ (lineBytes r.lines).length := by
    rw [Request.lines, lineBytes_cons, List.length_append, List.length_append, length_crlf]
    omega
  have hmin : ¬ (r.head ++ part).length < minReqLen := by
    rw [hlen, hheadLen, minReqLen]
    omega
  have hend : lwipStrnstr (r.head ++ part) (crlf ++ crlf) (r.head ++ part).length =
      some (crlf ++ crlf ++ part) := by
    apply headerEnd_found (by simp [Request.lines]) (fun l hl => h.clean hl)
    exact Nat.le_trans (Nat.le_add_right _ _) (Nat.le_of_eq hlen.symm)
  have hbody : (UInt32.ofNat r.body.length).toNat = r.body.length := by
    rw [UInt32.toNat_ofNat']
    exact Nat.mod_eq_of_lt (by omega)
  have hreq : UInt16.ofNat ((UInt32.ofNat r.body.length).toNat +
      ((r.head ++ part).length - (crlf ++ crlf ++ part).length) + 4) =
      UInt16.ofNat r.encode.length := by
    congr 1
    have hend : (crlf ++ crlf ++ part).length = 4 + part.length := List.length_append
    rw [hbody, hlen, length_encode, hend]
    omega
  have hreqNat : (UInt16.ofNat r.encode.length).toNat = r.encode.length := by
    rw [UInt16.toNat_ofNat']
    exact Nat.mod_eq_of_lt hplain.short
  have hmissing : (r.head ++ part).length < r.encode.length ↔ part.length < r.body.length := by
    rw [hlen, length_encode]
    omega
  obtain ⟨start, sp1, buffer, hparsed⟩ := parseLines_request h hplain hmethod
    (by omega : r.lines.length ≤ (r.head ++ part).length) part
  change parseLines _ _ (r.head ++ part) _ = _ at hparsed
  obtain ⟨keepalive, accept, hstrings⟩ := parseHeaders_isSome (crlf ++ crlf ++ part) sp1
    (r.head ++ part).length (buffer.drop (buffer.length - start)) false .json
  refine ⟨accept, keepalive, ?_⟩
  rw [parseBuffer, if_neg hmin, hend]
  dsimp only
  rw [contentLength_request h hplain]
  dsimp only
  rw [hreq, hreqNat]
  by_cases hpartial : part.length < r.body.length
  · rw [if_pos (hmissing.mpr hpartial), if_pos hpartial]
  · rw [if_neg (fun hlt => hpartial (hmissing.mp hlt)), if_neg hpartial, hparsed]
    dsimp only
    rw [hstrings]
    dsimp only
    have hnone : UInt32.ofNat r.body.length = 0 ↔ r.body = [] := by
      rw [← UInt32.toNat_inj, hbody, ← List.length_eq_zero_iff]
      rfl
    simp only [hnone]
    rfl

/-- The head has come and not all of the body. -/
theorem parseBuffer_inProgress (h : WellFormed r) (hplain : Plain r)
    (hpart : part.length < r.body.length) :
    parseBuffer (r.head ++ part) = .inProgress (UInt16.ofNat r.encode.length) := by
  obtain ⟨m, hmethod⟩ := hplain.method
  obtain ⟨accept, keepalive, heq⟩ := parseBuffer_eq h hplain hmethod (Nat.le_of_lt hpart)
  rw [heq, if_pos hpart]

/-- The request has come, and nothing behind it. -/
theorem parseBuffer_encode (h : WellFormed r) (hplain : Plain r) :
    ∃ m accept keepalive, r.method = HttpMethod.name m ∧
      parseBuffer r.encode =
        .request ⟨m, accept, r.uri, if r.body = [] then none else some r.body⟩
          (UInt16.ofNat r.encode.length) keepalive := by
  obtain ⟨m, hmethod⟩ := hplain.method
  obtain ⟨accept, keepalive, heq⟩ := parseBuffer_eq h hplain hmethod (Nat.le_refl r.body.length)
  refine ⟨m, accept, keepalive, hmethod, ?_⟩
  rw [Request.encode, heq, if_neg (Nat.lt_irrefl _), cString_eq hplain.body]
  rfl

end BouffaloSdk.OtHttpd
