import BouffaloSdk.Lhal.BflbSecSha

/-!
# Streams through the SHA engine

What the engine is to be handed: the blocks of the padded message, the first
one marked. It is, however the message is cut, unless one chunk brings more
whole blocks than the length field of a run can count.
-/

namespace BouffaloSdk.BflbSecSha
open Kit Kit.BlockStream

/-- The message, a one bit, zeros up to the length field at a block's end, and the
length in bits. -/
def shaPad (kind : Kind) (msg : List UInt8) : List UInt8 :=
  msg ++ (0x80 :: List.replicate
    ((2 * kind.blockSize - 1 - kind.lenSize - msg.length % kind.blockSize) % kind.blockSize) 0) ++
    toBE kind.lenSize (8 * msg.length)

/-- The whole blocks, the first one marked. -/
def markedBlocks (n : Nat) (data : List UInt8) : List (Bool × Block) :=
  (List.range (data.length / n)).map fun i => (i == 0, (data.drop (i * n)).take n)

/-- The blocks that a chunk of `len` bytes brings in one run, behind `pos` bytes. -/
def bulk (n pos len : Nat) : Nat :=
  if pos % n ≠ 0 ∧ n - pos % n ≤ len then (len - (n - pos % n)) / n else len / n

/-- No chunk brings more blocks than a run can count. -/
def Countable (kind : Kind) : (pos : Nat) → List (List UInt8) → Prop
  | _, [] => True
  | pos, chunk :: chunks =>
    bulk kind.blockSize pos chunk.length < 2 ^ 16 ∧ Countable kind (pos + chunk.length) chunks

def Countable.decide (kind : Kind) :
    (pos : Nat) → (chunks : List (List UInt8)) → Decidable (Countable kind pos chunks)
  | _, [] => .isTrue trivial
  | pos, chunk :: chunks =>
    have := Countable.decide kind (pos + chunk.length) chunks
    inferInstanceAs (Decidable (_ ∧ _))

instance (pos : Nat) (chunks : List (List UInt8)) (kind : Kind) :
    Decidable (Countable kind pos chunks) := Countable.decide kind pos chunks

variable {kind : Kind} {ctx : Ctx} {msg input : List UInt8} {engine : List (Bool × Block)}
  {pos : Nat}

/-! ## Blocks handed over -/

def handOver (engine : List (Bool × Block)) (block : Block) : List (Bool × Block) :=
  engine ++ [(engine.isEmpty, block)]

theorem engineRun_eq (n count : Nat) (engine : List (Bool × Block)) (data : List UInt8) :
    engineRun n engine (!engine.isEmpty) count data =
      absorbBlocks handOver n count engine data := by
  induction count generalizing engine data with
  | zero => rfl
  | succ count ih =>
    have hnext := ih (engine ++ [(engine.isEmpty, data.take n)]) (data.drop n)
    have hfilled : (engine ++ [(engine.isEmpty, data.take n)]).isEmpty = false := by
      cases engine <;> rfl
    rw [hfilled] at hnext
    rw [engineRun, absorbBlocks, Bool.not_not]
    exact hnext

theorem length_engineRun (n count : Nat) (engine : List (Bool × Block)) (goesOn : Bool)
    (data : List UInt8) : (engineRun n engine goesOn count data).length = engine.length + count := by
  induction count generalizing engine goesOn data with
  | zero => rfl
  | succ count ih =>
    rw [engineRun, ih, List.length_append, List.length_singleton]
    omega

theorem absorbBlocks_handOver (n count : Nat) (engine : List (Bool × Block)) (data : List UInt8) :
    absorbBlocks handOver n count engine data = engine ++ (List.range count).map fun i =>
      (engine.isEmpty && i == 0, (data.drop (i * n)).take n) := by
  induction count generalizing engine data with
  | zero => rw [absorbBlocks, List.range_zero, List.map_nil, List.append_nil]
  | succ count ih =>
    have hfilled : (handOver engine (data.take n)).isEmpty = false := by
      cases engine <;> rfl
    rw [absorbBlocks, ih, hfilled, handOver, List.append_assoc, List.range_succ_eq_map,
      List.map_cons, List.map_map]
    congr 1
    rw [List.singleton_append]
    congr 1
    · simp
    · refine List.map_congr_left fun i _ => ?_
      simp [List.drop_drop, Nat.succ_mul, Nat.add_comm]

theorem absorb_eq_markedBlocks (n : Nat) (data : List UInt8) :
    absorb handOver n [] data = markedBlocks n data := by
  rw [absorb, absorbBlocks_handOver]
  rfl

theorem length_absorb (n : Nat) (engine : List (Bool × Block)) (data : List UInt8) :
    (absorb handOver n engine data).length = engine.length + data.length / n := by
  rw [absorb, absorbBlocks_handOver, List.length_append, List.length_map, List.length_range]

/-! ## Positions -/

theorem Kind.blockSize_pos (kind : Kind) : 0 < kind.blockSize := by
  cases kind <;> decide

theorem Kind.and_mask (kind : Kind) (total : Nat) :
    total &&& (kind.blockSize - 1) = total % kind.blockSize := by
  cases kind with
  | sha1 => exact Nat.and_two_pow_sub_one_eq_mod total 6
  | sha512 => exact Nat.and_two_pow_sub_one_eq_mod total 7

theorem Kind.mod_mod (kind : Kind) (total : Nat) :
    total % 2 ^ kind.width % kind.blockSize = total % kind.blockSize := by
  refine Nat.mod_mod_of_dvd total ?_
  cases kind <;> decide

/-- The blocks up to the end of a chunk: one that it completes, and its bulk. -/
theorem div_add_bulk (kind : Kind) (pos len : Nat) :
    (pos + len) / kind.blockSize = pos / kind.blockSize +
      (if pos % kind.blockSize ≠ 0 ∧ kind.blockSize - pos % kind.blockSize ≤ len then 1 else 0) +
      bulk kind.blockSize pos len := by
  unfold bulk
  by_cases h : pos % kind.blockSize ≠ 0 ∧ kind.blockSize - pos % kind.blockSize ≤ len
  · rw [if_pos h, if_pos h]
    cases kind <;> simp only [Kind.blockSize] at h ⊢ <;> omega
  · rw [if_neg h, if_neg h]
    cases kind <;> simp only [Kind.blockSize] at h ⊢ <;> omega

/-! ## One update -/

/-- The counter stands for `pos` bytes, and the padding is as it was set up. -/
structure Counted (kind : Kind) (ctx : Ctx) (pos : Nat) : Prop where
  total0 : ctx.total0 = pos % 2 ^ kind.width
  padding : ctx.shaPadding = 0x80 :: List.replicate (kind.blockSize - 1) 0

theorem Counted.left (h : Counted kind ctx pos) :
    ctx.total0 &&& (kind.blockSize - 1) = pos % kind.blockSize := by
  rw [kind.and_mask, h.total0, kind.mod_mod]

theorem shaDrain_counters (kind : Kind) (ctx : Ctx) (left : Nat) (input : List UInt8) :
    (shaDrain kind ctx left input).total0 = ctx.total0 ∧
      (shaDrain kind ctx left input).total1 = ctx.total1 ∧
      (shaDrain kind ctx left input).shaPadding = ctx.shaPadding := by
  unfold shaDrain
  simp only
  split <;> split <;> exact ⟨rfl, rfl, rfl⟩

theorem length_shaDrain (kind : Kind) (ctx : Ctx) (left : Nat) (input : List UInt8) :
    (shaDrain kind ctx left input).engine.length =
      ctx.engine.length + input.length / kind.blockSize % 2 ^ 16 := by
  have hfield : msgLenField (input.length / kind.blockSize % 2 ^ 32) =
      input.length / kind.blockSize % 2 ^ 16 := Nat.mod_mod_of_dvd _ (by decide)
  unfold shaDrain
  by_cases hfill : input.length / kind.blockSize % 2 ^ 32 > 0
  · simp only [if_pos hfill]
    split <;> exact (length_engineRun _ _ _ _ _).trans (by rw [hfield])
  · have hnone : input.length / kind.blockSize % 2 ^ 16 = 0 := by omega
    simp only [if_neg hfill, hnone]
    split <;> rfl

/-- The totals go on counting, and the engine gains no more than the blocks that
were completed: one from the buffer, and of the bulk what a run can count. -/
theorem shaUpdate_counters (h : Counted kind ctx pos) (input : List UInt8) :
    Counted kind (shaUpdate kind ctx input) (pos + input.length) ∧
      (shaUpdate kind ctx input).engine.length + pos / kind.blockSize +
          bulk kind.blockSize pos input.length =
        ctx.engine.length + (pos + input.length) / kind.blockSize +
          bulk kind.blockSize pos input.length % 2 ^ 16 := by
  have hdiv := div_add_bulk kind pos input.length
  unfold shaUpdate
  by_cases hnil : input.length = 0
  · rw [if_pos hnil]
    have hbulk : bulk kind.blockSize pos input.length = 0 := by
      rw [bulk, hnil, Nat.zero_sub, Nat.zero_div, ite_self]
    rw [hbulk, hnil, Nat.add_zero]
    exact ⟨h, rfl⟩
  · have htotal : (ctx.total0 + input.length) % 2 ^ kind.width =
        (pos + input.length) % 2 ^ kind.width := by
      rw [h.total0, Nat.mod_add_mod]
    rw [if_neg hnil]
    simp only [h.left]
    by_cases hlong : pos % kind.blockSize ≠ 0 ∧ kind.blockSize - pos % kind.blockSize ≤ input.length
    · have hbulk : bulk kind.blockSize pos input.length =
          (input.drop (kind.blockSize - pos % kind.blockSize)).length / kind.blockSize := by
        rw [bulk, if_pos hlong, List.length_drop]
      rw [if_pos hlong] at hdiv ⊢
      refine ⟨⟨?_, ?_⟩, ?_⟩
      · rw [(shaDrain_counters _ _ _ _).1]
        exact htotal
      · rw [(shaDrain_counters _ _ _ _).2.2]
        exact h.padding
      · rw [length_shaDrain, length_engineRun, ← hbulk]
        omega
    · have hbulk : bulk kind.blockSize pos input.length = input.length / kind.blockSize := by
        rw [bulk, if_neg hlong]
      rw [if_neg hlong] at hdiv ⊢
      refine ⟨⟨?_, ?_⟩, ?_⟩
      · rw [(shaDrain_counters _ _ _ _).1]
        exact htotal
      · rw [(shaDrain_counters _ _ _ _).2.2]
        exact h.padding
      · rw [length_shaDrain, ← hbulk]
        simp only
        omega

/-- What the driver has of a message: its length, the whole blocks at the engine and
the rest in the buffer. -/
structure Streams (kind : Kind) (ctx : Ctx) (msg : List UInt8) : Prop where
  counted : Counted kind ctx msg.length
  total1 : ctx.total1 = msg.length / 2 ^ kind.width % 2 ^ kind.width
  stream : Holds handOver (n := kind.blockSize) [] msg ctx.engine ctx.shaBuf
  feed : ctx.shaFeed = !ctx.engine.isEmpty

theorem streams_start (kind : Kind) : Streams kind (shaStart kind) [] where
  counted := ⟨(Nat.zero_mod _).symm, rfl⟩
  total1 := by
    rw [List.length_nil, Nat.zero_div, Nat.zero_mod]
    rfl
  stream := Holds.empty (by rw [shaStart, List.length_replicate])
  feed := rfl

/-- A drain hands the whole blocks over and buffers the rest. -/
theorem shaDrain_eq (countable : input.length / kind.blockSize < 2 ^ 16)
    (feed : ctx.shaFeed = !ctx.engine.isEmpty) (left : Nat) :
    shaDrain kind ctx left input =
      { ctx with
        shaBuf := blit ctx.shaBuf left (residual kind.blockSize input)
        engine := absorb handOver kind.blockSize ctx.engine input
        shaFeed := !(absorb handOver kind.blockSize ctx.engine input).isEmpty } := by
  have hfield : msgLenField (input.length / kind.blockSize) = input.length / kind.blockSize :=
    Nat.mod_eq_of_lt countable
  have hpos := kind.blockSize_pos
  have hle : input.length / kind.blockSize * kind.blockSize ≤ input.length := Nat.div_mul_le_self _ _
  have hbytes : input.length / kind.blockSize * kind.blockSize < 2 ^ 32 := by
    have : kind.blockSize ≤ 128 := by cases kind <;> decide
    calc input.length / kind.blockSize * kind.blockSize
        ≤ (2 ^ 16 - 1) * 128 := Nat.mul_le_mul (by omega) this
      _ < 2 ^ 32 := by decide
  have hrest : (residual kind.blockSize input).length = input.length % kind.blockSize :=
    length_residual input
  have htake : (input.drop (input.length / kind.blockSize * kind.blockSize)).take
      (input.length % kind.blockSize) = residual kind.blockSize input := by
    rw [← hrest]
    exact List.take_length
  have hempty : ¬ input.length % kind.blockSize > 0 → residual kind.blockSize input = [] := by
    intro hnone
    exact List.length_eq_zero_iff.mp (by omega)
  unfold shaDrain
  simp only [Nat.mod_eq_of_lt (show input.length / kind.blockSize < 2 ^ 32 by omega),
    Nat.mod_eq_of_lt hbytes, hfield]
  by_cases hfill : input.length / kind.blockSize > 0
  · have hrun : engineRun kind.blockSize ctx.engine ctx.shaFeed (input.length / kind.blockSize) input =
        absorb handOver kind.blockSize ctx.engine input := by
      rw [feed, engineRun_eq, absorb]
    have hfed : (absorb handOver kind.blockSize ctx.engine input).isEmpty = false := by
      rw [List.isEmpty_eq_false_iff_exists_mem]
      apply List.exists_mem_of_length_pos
      rw [length_absorb]
      omega
    simp only [if_pos hfill, hrun, hfed, htake]
    split
    · rfl
    · rename_i hnone
      simp [hempty hnone, blit]
  · have hshort : input.length < kind.blockSize := by
      apply Nat.lt_of_not_le
      intro hlong
      exact hfill (Nat.div_pos hlong hpos)
    have hzero : input.length / kind.blockSize = 0 := Nat.div_eq_of_lt hshort
    rw [hzero, Nat.zero_mul, List.drop_zero] at htake
    simp only [if_neg hfill, absorb_short handOver hshort, htake, ← feed]
    split
    · rfl
    · rename_i hnone
      simp [hempty hnone, blit]

/-- The two halves of the counter carry. -/
theorem Streams.totals (h : Streams kind ctx msg) {len : Nat} (small : len < 2 ^ kind.width) :
    (ctx.total0 + len) % 2 ^ kind.width = (msg.length + len) % 2 ^ kind.width ∧
      (if (ctx.total0 + len) % 2 ^ kind.width < len then (ctx.total1 + 1) % 2 ^ kind.width
        else ctx.total1) = (msg.length + len) / 2 ^ kind.width % 2 ^ kind.width := by
  have htotal0 := h.counted.total0
  have htotal1 := h.total1
  refine ⟨by rw [htotal0, Nat.mod_add_mod], ?_⟩
  by_cases hcarry : (ctx.total0 + len) % 2 ^ kind.width < len
  · rw [if_pos hcarry]
    cases kind <;> simp only [Kind.width] at * <;> omega
  · rw [if_neg hcarry]
    cases kind <;> simp only [Kind.width] at * <;> omega

theorem Streams.update (h : Streams kind ctx msg) (small : input.length < 2 ^ kind.width)
    (countable : bulk kind.blockSize msg.length input.length < 2 ^ 16) :
    Streams kind (shaUpdate kind ctx input) (msg ++ input) := by
  obtain ⟨htotal0, htotal1⟩ := h.totals small
  have hleft := Nat.mod_lt msg.length kind.blockSize_pos
  have hcounted := (shaUpdate_counters h.counted input).1
  rw [← List.length_append] at hcounted
  unfold shaUpdate at hcounted ⊢
  by_cases hnil : input.length = 0
  · rw [if_pos hnil, List.length_eq_zero_iff.mp hnil, List.append_nil]
    exact h
  · rw [if_neg hnil] at hcounted ⊢
    simp only [h.counted.left, htotal1] at hcounted ⊢
    by_cases hlong : msg.length % kind.blockSize ≠ 0 ∧
        kind.blockSize - msg.length % kind.blockSize ≤ input.length
    · rw [bulk, if_pos hlong, ← List.length_drop] at countable
      have hbuffer : (blit ctx.shaBuf (msg.length % kind.blockSize)
          (input.take (kind.blockSize - msg.length % kind.blockSize))).length = kind.blockSize := by
        rw [length_blit (by rw [h.stream.length_buffer, List.length_take]; omega)]
        exact h.stream.length_buffer
      have hblock : engineRun kind.blockSize ctx.engine ctx.shaFeed 1
          (blit ctx.shaBuf (msg.length % kind.blockSize)
            (input.take (kind.blockSize - msg.length % kind.blockSize))) =
          handOver ctx.engine (blit ctx.shaBuf (msg.length % kind.blockSize)
            (input.take (kind.blockSize - msg.length % kind.blockSize))) := by
        rw [h.feed, engineRun_eq, absorbBlocks, absorbBlocks, List.take_of_length_le (by omega)]
      have hfed : ∀ engine block, true = !(handOver engine block).isEmpty := by
        intro engine block
        cases engine <;> rfl
      rw [if_pos hlong] at hcounted ⊢
      rw [shaDrain_eq countable (by simp only [hblock]; exact hfed _ _)] at hcounted ⊢
      refine ⟨hcounted, ?_, ?_, rfl⟩
      · rw [List.length_append]
      · simp only [hblock]
        exact h.stream.append_long kind.blockSize_pos (by omega) hlong.2
    · rw [bulk, if_neg hlong] at countable
      rw [if_neg hlong] at hcounted ⊢
      rw [shaDrain_eq countable (by exact h.feed)] at hcounted ⊢
      refine ⟨hcounted, ?_, ?_, rfl⟩
      · rw [List.length_append]
      · by_cases haligned : msg.length % kind.blockSize = 0
        · rw [haligned]
          exact h.stream.append_aligned kind.blockSize_pos haligned
        · have hshort : msg.length % kind.blockSize + input.length < kind.blockSize := by omega
          simp only [absorb_short handOver (show input.length < kind.blockSize by omega)]
          rw [residual_short (by omega)]
          exact h.stream.append_short hshort

/-! ## The finish -/

theorem padn_pos (kind : Kind) (ctx : Ctx) (h : Counted kind ctx pos) :
    ctx.shaPadding.take (padn kind ctx) = 0x80 :: List.replicate
      ((2 * kind.blockSize - 1 - kind.lenSize - pos % kind.blockSize) % kind.blockSize) 0 := by
  have hleft := Nat.mod_lt pos kind.blockSize_pos
  have hpadn : padn kind ctx =
      (2 * kind.blockSize - 1 - kind.lenSize - pos % kind.blockSize) % kind.blockSize + 1 := by
    unfold padn
    simp only [h.left]
    by_cases hone : pos % kind.blockSize < kind.blockSize - kind.lenSize
    · rw [if_pos hone]
      cases kind <;> simp only [Kind.blockSize, Kind.lenSize] at * <;> omega
    · rw [if_neg hone]
      cases kind <;> simp only [Kind.blockSize, Kind.lenSize] at * <;> omega
  have hlt := Nat.mod_lt (2 * kind.blockSize - 1 - kind.lenSize - pos % kind.blockSize)
    kind.blockSize_pos
  rw [hpadn, h.padding, List.take_succ_cons, List.take_replicate, Nat.min_eq_left (by omega)]

/-- The length in bits, as the two shifted counters give it. -/
theorem Streams.msgLen_eq (h : Streams kind ctx msg) :
    msgLen kind ctx = toBE kind.lenSize (8 * msg.length) := by
  have htotal0 := h.counted.total0
  have htotal1 := h.total1
  have hhalf : kind.lenSize = kind.width / 8 + kind.width / 8 := by cases kind <;> rfl
  have hbytes : 256 ^ (kind.width / 8) = 2 ^ kind.width := by cases kind <;> rfl
  have hwide : 2 ^ kind.width = 2 ^ (kind.width - 3) * 8 := by cases kind <;> rfl
  have hhigh : (ctx.total0 >>> (kind.width - 3) ||| (ctx.total1 <<< 3) % 2 ^ kind.width) =
      8 * msg.length / 2 ^ kind.width % 2 ^ kind.width := by
    have hor : (ctx.total1 <<< 3) % 2 ^ kind.width =
        (ctx.total1 % 2 ^ (kind.width - 3)) <<< 3 := by
      rw [Nat.shiftLeft_eq, Nat.shiftLeft_eq, hwide, Nat.mul_mod_mul_right]
    have htop : ctx.total0 >>> (kind.width - 3) < 2 ^ 3 := by
      rw [Nat.shiftRight_eq_div_pow, htotal0]
      cases kind <;> simp only [Kind.width] <;> omega
    rw [hor, Nat.lor_comm, ← Nat.shiftLeft_add_eq_or_of_lt htop, Nat.shiftLeft_eq,
      Nat.shiftRight_eq_div_pow, htotal0, htotal1]
    cases kind <;> simp only [Kind.width] <;> omega
  have hlow : (ctx.total0 <<< 3) % 2 ^ kind.width = 8 * msg.length % 2 ^ kind.width := by
    rw [Nat.shiftLeft_eq, htotal0]
    cases kind <;> simp only [Kind.width] <;> omega
  have hbe : ∀ v, toBE (kind.width / 8) (v % 2 ^ kind.width) = toBE (kind.width / 8) v := by
    intro v
    rw [← hbytes, toBE, toLE_mod, toBE]
  calc msgLen kind ctx
      = toBE (kind.width / 8) (ctx.total0 >>> (kind.width - 3) |||
            (ctx.total1 <<< 3) % 2 ^ kind.width) ++
          toBE (kind.width / 8) ((ctx.total0 <<< 3) % 2 ^ kind.width) := rfl
    _ = toBE (kind.width / 8) (8 * msg.length / 2 ^ kind.width) ++
          toBE (kind.width / 8) (8 * msg.length) := by rw [hhigh, hlow, hbe, hbe]
    _ = toBE kind.lenSize (8 * msg.length) := by rw [hhalf, toBE_append, hbytes]

theorem length_toBE (k v : Nat) : (toBE k v).length = k := by
  rw [toBE, List.length_reverse, length_toLE]

theorem length_msgLen (kind : Kind) (ctx : Ctx) : (msgLen kind ctx).length = kind.lenSize := by
  unfold msgLen
  simp only [List.length_append, length_toBE]
  cases kind <;> rfl

/-- An update leaves the padding alone. -/
theorem shaUpdate_shaPadding (kind : Kind) (ctx : Ctx) (padding input : List UInt8) :
    shaUpdate kind { ctx with shaPadding := padding } input =
      { shaUpdate kind ctx input with shaPadding := padding } := by
  unfold shaUpdate shaDrain
  by_cases hnil : input.length = 0
  · rw [if_pos hnil, if_pos hnil]
  · rw [if_neg hnil, if_neg hnil]
    simp only
    split <;> split <;> split <;> rfl

/-- The updates of a finish: with the padding, and with the length field. -/
def padded (kind : Kind) (ctx : Ctx) : Ctx :=
  shaUpdate kind (shaUpdate kind ctx (ctx.shaPadding.take (padn kind ctx))) (msgLen kind ctx)

theorem shaFinish_engine (kind : Kind) (ctx : Ctx) :
    (shaFinish kind ctx).engine = (padded kind ctx).engine := by
  have htake : ∀ padding : List UInt8,
      (blit padding 0 (msgLen kind ctx)).take kind.lenSize = msgLen kind ctx := by
    intro padding
    rw [blit, List.take_zero, List.nil_append, ← length_msgLen kind ctx, List.take_left]
  unfold shaFinish padded
  simp only [htake, shaUpdate_shaPadding]

theorem shaLinkFinish_engine (kind : Kind) (ctx : Ctx) :
    (shaLinkFinish kind ctx).engine = (padded kind ctx).engine := rfl

/-- The bytes that a finish adds. -/
def trailer (kind : Kind) (len : Nat) : List UInt8 :=
  0x80 :: List.replicate
    ((2 * kind.blockSize - 1 - kind.lenSize - len % kind.blockSize) % kind.blockSize) 0

theorem shaPad_eq (kind : Kind) (msg : List UInt8) :
    shaPad kind msg = msg ++ trailer kind msg.length ++ toBE kind.lenSize (8 * msg.length) := rfl

theorem length_trailer_le (kind : Kind) (len : Nat) :
    (trailer kind len).length ≤ kind.blockSize := by
  have hlt := Nat.mod_lt (2 * kind.blockSize - 1 - kind.lenSize - len % kind.blockSize)
    kind.blockSize_pos
  rw [trailer, List.length_cons, List.length_replicate]
  exact hlt

theorem bulk_of_le {len : Nat} (h : len ≤ kind.blockSize) :
    bulk kind.blockSize pos len < 2 ^ 16 := by
  have hone : ∀ m, m ≤ kind.blockSize → m / kind.blockSize ≤ 1 := by
    intro m hm
    exact (Nat.div_le_div_right hm).trans (Nat.div_self kind.blockSize_pos).le
  unfold bulk
  split
  · exact (hone _ ((Nat.sub_le _ _).trans h)).trans_lt (by decide)
  · exact (hone _ h).trans_lt (by decide)

theorem Kind.blockSize_lt (kind : Kind) : kind.blockSize < 2 ^ kind.width := by
  cases kind <;> decide

theorem Kind.lenSize_le (kind : Kind) : kind.lenSize ≤ kind.blockSize := by
  cases kind <;> decide

/-- A finish hands over the rest of the padded message. -/
theorem Streams.padded (h : Streams kind ctx msg) :
    (padded kind ctx).engine = markedBlocks kind.blockSize (shaPad kind msg) := by
  have htrailer := length_trailer_le kind msg.length
  have hlength : (toBE kind.lenSize (8 * msg.length)).length ≤ kind.blockSize := by
    rw [length_toBE]
    exact kind.lenSize_le
  have hfirst := h.update (htrailer.trans_lt kind.blockSize_lt) (bulk_of_le htrailer)
  have hboth := hfirst.update (hlength.trans_lt kind.blockSize_lt) (bulk_of_le hlength)
  rw [BflbSecSha.padded, padn_pos kind ctx h.counted, h.msgLen_eq, shaPad_eq,
    ← absorb_eq_markedBlocks, ← hboth.stream.state_eq]
  rfl

/-- However the engine came to what it has, a finish adds the one or two blocks that
the message is short of. -/
theorem length_padded (h : Counted kind ctx msg.length) :
    (padded kind ctx).engine.length + msg.length / kind.blockSize =
      ctx.engine.length + (shaPad kind msg).length / kind.blockSize := by
  have htrailer := length_trailer_le kind msg.length
  have hlength : (msgLen kind ctx).length ≤ kind.blockSize := by
    rw [length_msgLen]
    exact kind.lenSize_le
  obtain ⟨hcounted, hfirst⟩ := shaUpdate_counters h (trailer kind msg.length)
  obtain ⟨-, hboth⟩ := shaUpdate_counters hcounted (msgLen kind ctx)
  have hpad : (shaPad kind msg).length =
      msg.length + (trailer kind msg.length).length + (msgLen kind ctx).length := by
    rw [shaPad_eq, List.length_append, List.length_append, length_toBE, length_msgLen]
  rw [Nat.mod_eq_of_lt (bulk_of_le htrailer)] at hfirst
  rw [Nat.mod_eq_of_lt (bulk_of_le hlength)] at hboth
  rw [padded, padn_pos kind ctx h, hpad]
  change (shaUpdate kind (shaUpdate kind ctx (trailer kind msg.length)) _).engine.length + _ = _
  omega

theorem length_markedBlocks (n : Nat) (data : List UInt8) :
    (markedBlocks n data).length = data.length / n := by
  rw [markedBlocks, List.length_map, List.length_range]

/-! ## Whole messages -/

theorem Streams.updates {chunks : List (List UInt8)} (h : Streams kind ctx msg)
    (small : ∀ chunk ∈ chunks, chunk.length < 2 ^ kind.width)
    (countable : Countable kind msg.length chunks) :
    Streams kind (chunks.foldl (shaUpdate kind) ctx) (msg ++ chunks.flatten) := by
  induction chunks generalizing ctx msg with
  | nil =>
    rw [List.flatten_nil, List.append_nil]
    exact h
  | cons chunk chunks ih =>
    obtain ⟨hchunk, hrest⟩ := countable
    rw [← List.length_append] at hrest
    have hnext := ih (h.update (small chunk List.mem_cons_self) hchunk)
      (fun c hc => small c (List.mem_cons_of_mem _ hc)) hrest
    rw [List.flatten_cons, ← List.append_assoc]
    exact hnext

/-- The engine never has more blocks than have come, and it stays behind from the first
chunk on that cannot be counted. -/
theorem Counted.updates {chunks : List (List UInt8)} (h : Counted kind ctx pos) :
    Counted kind (chunks.foldl (shaUpdate kind) ctx) (pos + chunks.flatten.length) ∧
      (chunks.foldl (shaUpdate kind) ctx).engine.length + pos / kind.blockSize ≤
        ctx.engine.length + (pos + chunks.flatten.length) / kind.blockSize ∧
      (¬ Countable kind pos chunks →
        (chunks.foldl (shaUpdate kind) ctx).engine.length + pos / kind.blockSize <
          ctx.engine.length + (pos + chunks.flatten.length) / kind.blockSize) := by
  induction chunks generalizing ctx pos with
  | nil => exact ⟨h, Nat.le_refl _, fun hno => absurd trivial hno⟩
  | cons chunk chunks ih =>
    obtain ⟨hcounted, hone⟩ := shaUpdate_counters h chunk
    obtain ⟨hdone, hle, hlt⟩ := ih hcounted
    have hmod := Nat.mod_le (bulk kind.blockSize pos chunk.length) (2 ^ 16)
    rw [List.flatten_cons, List.length_append, ← Nat.add_assoc]
    refine ⟨hdone, ?_, ?_⟩
    · rw [List.foldl_cons]
      omega
    · intro hno
      rw [List.foldl_cons]
      by_cases hchunk : bulk kind.blockSize pos chunk.length < 2 ^ 16
      · have hbehind := hlt fun hrest => hno ⟨hchunk, hrest⟩
        omega
      · have hshort := Nat.mod_lt (bulk kind.blockSize pos chunk.length) (show 2 ^ 16 > 0 by decide)
        omega

theorem streamed_eq (api : Api) (chunks : List (List UInt8)) :
    streamed api chunks =
      (padded api.kind (chunks.foldl (shaUpdate api.kind) (shaStart api.kind))).engine := by
  cases api with
  | sha1 | sha256 | sha512 => exact shaFinish_engine _ _
  | sha1Link | sha256Link | sha512Link => exact shaLinkFinish_engine _ _

/-- Blocks are missing at the engine where a chunk could not be counted. -/
theorem length_streamed_lt {api : Api} {chunks : List (List UInt8)}
    (hno : ¬ Countable api.kind 0 chunks) :
    (streamed api chunks).length <
      (markedBlocks api.kind.blockSize (shaPad api.kind chunks.flatten)).length := by
  obtain ⟨hcounted, -, hbehind⟩ := Counted.updates (streams_start api.kind).counted
  have hshort := hbehind hno
  have hempty : (shaStart api.kind).engine.length = 0 := rfl
  rw [List.length_nil, Nat.zero_add] at hcounted hshort
  rw [hempty, Nat.zero_div] at hshort
  have hlength := length_padded hcounted
  rw [streamed_eq, length_markedBlocks]
  omega

/-- The engine is handed the blocks of the padded message, the first one marked, exactly
when no chunk brings more whole blocks than one run counts. -/
theorem streamed_iff_countable (api : Api) (chunks : List (List UInt8))
    (small : ∀ chunk ∈ chunks, chunk.length < 2 ^ api.kind.width) :
    streamed api chunks = markedBlocks api.kind.blockSize (shaPad api.kind chunks.flatten) ↔
      Countable api.kind 0 chunks := by
  constructor
  · intro hsame
    by_contra hno
    have hshort := length_streamed_lt hno
    rw [hsame] at hshort
    exact Nat.lt_irrefl _ hshort
  · intro hcountable
    have hstreams := (streams_start api.kind).updates small hcountable
    rw [streamed_eq]
    exact hstreams.padded

/-- Two chunks of "abc". -/
theorem streamed_abc : streamed .sha256 [[0x61], [0x62, 0x63]] =
    markedBlocks 64 (shaPad .sha1 [0x61, 0x62, 0x63]) :=
  (streamed_iff_countable .sha256 [[0x61], [0x62, 0x63]] (by decide)).mpr (by decide)

/-- 4 MiB at once: none of the bytes reaches the engine. -/
theorem streamed_cut_short : ¬ ∀ (api : Api) (chunks : List (List UInt8)),
    (∀ chunk ∈ chunks, chunk.length < 2 ^ api.kind.width) →
    streamed api chunks = markedBlocks api.kind.blockSize (shaPad api.kind chunks.flatten) := by
  intro hall
  have hlen : (List.replicate (2 ^ 22) (0 : UInt8)).length = 2 ^ 22 := List.length_replicate
  have hsmall : ∀ chunk ∈ [List.replicate (2 ^ 22) (0 : UInt8)],
      chunk.length < 2 ^ Api.sha256.kind.width := by
    intro chunk hchunk
    rw [List.mem_singleton.mp hchunk, hlen]
    decide
  have hno : ¬ Countable Api.sha256.kind 0 [List.replicate (2 ^ 22) 0] := by
    intro hcountable
    have hbulk := hcountable.1
    rw [hlen] at hbulk
    exact absurd hbulk (by decide)
  have hshort := length_streamed_lt hno
  rw [hall .sha256 _ hsmall] at hshort
  exact Nat.lt_irrefl _ hshort

end BouffaloSdk.BflbSecSha
