import BouffaloSdk.Kit.Backlog
import BouffaloSdk.Kit.Circular
import BouffaloSdk.Log.BflogQueue

/-!
# The message queue over whole runs

The ring holds a backlog of whole messages. It reads the size of a message in
place, so it fails exactly when it drops or loads a message that starts on the
last byte of the pool, or loads one that fills the message area.
-/

namespace BouffaloSdk.Bflog
open Kit Kit.Circular Kit.Word

variable {size : Nat} {q : Queue} {pool : List UInt8} {b : Backlog UInt8 size}

/-- A message that starts with its size and is as large as the pool allows. -/
structure MessageOk (size : Nat) (m : List UInt8) : Prop where
  header : ofLE (m.take 2) = m.length
  large : min sizeofBflogMsg size ≤ m.length
  small : m.length ≤ 296

/-- The ring holds the messages of `b` one after the other. -/
structure QueueOk (q : Queue) (pool : List UInt8) (b : Backlog UInt8 size) : Prop where
  size_eq : q.size = size
  pool_length : pool.length = size
  size_pos : 0 < size
  size_lt : size < 2 ^ 16
  rpos_lt : q.rpos < size
  wpos_eq : q.wpos = wrap size (q.rpos + b.length)
  free_eq : q.free + b.length = size
  bytes : window pool q.rpos b.length = b.messages.flatten
  messages : ∀ m ∈ b.messages, MessageOk size m

/-- Messages that follow each other from `rpos` on, none of which starts on
the last byte. -/
def HeadersFit (size : Nat) : Nat → List (List UInt8) → Prop
  | _, [] => True
  | rpos, m :: ms => rpos + 2 ≤ size ∧ HeadersFit size (wrap size (rpos + m.length)) ms

theorem MessageOk.pos {m : List UInt8} (h : MessageOk size m) (hsize : 0 < size) : 0 < m.length := by
  have hlarge := h.large
  unfold sizeofBflogMsg at hlarge
  omega

/-- The size read in place is that of the message there. -/
theorem msgSizeAt_eq {rpos : Nat} {m : List UInt8} {ms : List (List UInt8)}
    (hpool : pool.length = size) (hm : MessageOk size m)
    (hbytes : window pool rpos (m :: ms).flatten.length = (m :: ms).flatten) :
    msgSizeAt pool rpos = if rpos + 2 ≤ size then some m.length else none := by
  unfold msgSizeAt
  rw [hpool]
  split
  · rename_i hfits
    have hlarge : 2 ≤ m.length := by
      have := hm.large
      unfold sizeofBflogMsg at this
      omega
    have htake : (window pool rpos (m :: ms).flatten.length).take 2 = window pool rpos 2 :=
      window_take (by simp; omega)
    have hslice : slice pool rpos 2 = m.take 2 := by
      rw [slice, ← window_eq_take (by rw [hpool]; exact hfits), ← htake, hbytes,
        List.flatten_cons, List.take_append_of_le_length hlarge]
    rw [hslice, hm.header]
  · rfl

/-- The loop drops what the backlog drops. -/
theorem queueFreeLoop_eq {n free : Nat} (hsize : q.size = size) (hlt : size < 2 ^ 16)
    (hpool : pool.length = size) (hpos : 0 < size) (hn : n ≤ size) {ms : List (List UInt8)}
    {fuel rpos space : Nat} (hfuel : ms.length < fuel) (hrpos : rpos < size)
    (hms : ∀ m ∈ ms, MessageOk size m)
    (hbytes : window pool rpos ms.flatten.length = ms.flatten)
    (hspace : space + ms.flatten.length ≤ size)
    (hfree : space + ms.flatten.length + n = free + size) :
    (HeadersFit size rpos (Backlog.dropped size n ms) →
      queueFreeLoop q pool free fuel rpos space =
        some (wrap size (rpos + (Backlog.dropped size n ms).flatten.length),
          space + (Backlog.dropped size n ms).flatten.length)) ∧
    (queueFreeLoop q pool free fuel rpos space ≠ none →
      HeadersFit size rpos (Backlog.dropped size n ms)) := by
  induction ms generalizing fuel rpos space with
  | nil =>
    obtain ⟨fuel, rfl⟩ := Nat.exists_eq_succ_of_ne_zero (Nat.ne_of_gt hfuel)
    have hdone : ¬ space < free := by
      simp only [List.flatten_nil, List.length_nil] at hfree
      omega
    refine ⟨fun _ => ?_, fun _ => trivial⟩
    rw [queueFreeLoop, if_neg hdone]
    simp [Backlog.dropped, wrap, hrpos]
  | cons m ms ih =>
    obtain ⟨fuel, rfl⟩ := Nat.exists_eq_succ_of_ne_zero
      (Nat.ne_of_gt (Nat.lt_of_le_of_lt (Nat.zero_le _) hfuel))
    rw [Backlog.dropped]
    split
    · rename_i hfits
      have hdone : ¬ space < free := by omega
      refine ⟨fun _ => ?_, fun _ => trivial⟩
      rw [queueFreeLoop, if_neg hdone]
      simp [wrap, hrpos]
    · rename_i hfull
      have hmore : space < free := by omega
      have hlen : (m :: ms).flatten.length = m.length + ms.flatten.length := by simp
      have hm := hms m List.mem_cons_self
      have hnext : (if rpos + m.length ≥ q.size then (rpos + m.length - q.size) % 2 ^ 16
          else add16 rpos m.length) = wrap size (rpos + m.length) := by
        rw [hsize]
        unfold wrap
        split
        · rw [if_neg (by omega), Nat.mod_eq_of_lt (by omega)]
        · rw [if_pos (by omega), add16_eq (by omega)]
      have hspaceNext : add16 space m.length = space + m.length := add16_eq (by omega)
      have hbytesNext : window pool (wrap size (rpos + m.length)) ms.flatten.length =
          ms.flatten := by
        have hdrop := congrArg (List.drop m.length) hbytes
        rw [window_drop (by omega) (by omega) (by omega), hpool, hlen, Nat.add_sub_cancel_left,
          List.flatten_cons, List.drop_left] at hdrop
        exact hdrop
      have hfuelNext : ms.length < fuel := by simpa using hfuel
      have hspaceLe : space + m.length + ms.flatten.length ≤ size := by omega
      have hrest := ih hfuelNext (wrap_lt (by omega))
        (fun m' hm' => hms m' (List.mem_cons_of_mem m hm')) hbytesNext hspaceLe (by omega)
      have hdropped : (Backlog.dropped size n ms).flatten.length ≤ ms.flatten.length := by
        have hsum := Backlog.length_dropped_add_kept size n ms
        omega
      rw [queueFreeLoop, if_pos hmore, msgSizeAt_eq hpool hm hbytes]
      constructor
      · rintro ⟨hfits, hothers⟩
        rw [if_pos hfits, Option.bind_some]
        dsimp only
        rw [hnext, hspaceNext, hrest.1 hothers]
        have hwrap : wrap size (wrap size (rpos + m.length) +
            (Backlog.dropped size n ms).flatten.length) =
            wrap size (rpos + (m :: Backlog.dropped size n ms).flatten.length) := by
          rw [List.flatten_cons, List.length_append]
          unfold wrap
          split <;> split <;> split <;> omega
        rw [hwrap, List.flatten_cons, List.length_append, Nat.add_assoc]
      · intro hsome
        by_cases hfits : rpos + 2 ≤ size
        · rw [if_pos hfits, Option.bind_some] at hsome
          dsimp only at hsome
          rw [hnext, hspaceNext] at hsome
          exact ⟨hfits, hrest.2 hsome⟩
        · rw [if_neg hfits] at hsome
          exact absurd rfl hsome

/-- Messages leave the ring at `rpos`. -/
theorem QueueOk.drop (h : QueueOk q pool b) {b' : Backlog UInt8 size} {ds : List (List UInt8)}
    (hsplit : b.messages = ds ++ b'.messages) :
    QueueOk { q with
        rpos := wrap size (q.rpos + ds.flatten.length)
        free := q.free + ds.flatten.length } pool b' := by
  have hlen : b.length = ds.flatten.length + b'.length := by
    rw [Backlog.length, hsplit, List.flatten_append, List.length_append]
    rfl
  have hfree := h.free_eq
  have hrpos := h.rpos_lt
  have hwrap : wrap size (q.rpos + b.length) =
      wrap size (wrap size (q.rpos + ds.flatten.length) + b'.length) := by
    unfold wrap
    split <;> split <;> split <;> omega
  refine ⟨h.size_eq, h.pool_length, h.size_pos, h.size_lt, wrap_lt (by omega), ?_, ?_, ?_, ?_⟩
  · dsimp only
    rw [h.wpos_eq, hwrap]
  · dsimp only
    omega
  · have hdrop := congrArg (List.drop ds.flatten.length) h.bytes
    rw [window_drop (by rw [h.pool_length]; exact hrpos) (by rw [h.pool_length]; omega) (by omega),
      h.pool_length, hlen, Nat.add_sub_cancel_left, hsplit, List.flatten_append,
      List.drop_left] at hdrop
    exact hdrop
  · intro m hm
    exact h.messages m (by rw [hsplit]; exact List.mem_append_right ds hm)

theorem length_le_flatten {ms : List (List UInt8)} (h : ∀ m ∈ ms, 0 < m.length) :
    ms.length ≤ ms.flatten.length := by
  induction ms with
  | nil => exact Nat.le_refl _
  | cons m ms ih =>
    have hm := h m List.mem_cons_self
    have hrest := ih fun m' hm' => h m' (List.mem_cons_of_mem m hm')
    simp only [List.length_cons, List.flatten_cons, List.length_append]
    omega

/-- Room is made for `n` bytes, unless a size cannot be read. -/
theorem QueueOk.queueFree_eq (h : QueueOk q pool b) {n : Nat} (hn : n ≤ size) (hfull : q.free < n) :
    (HeadersFit size q.rpos (Backlog.dropped size n b.messages) →
      queueFree q pool (sub16 n q.free) =
        some { q with
          rpos := wrap size (q.rpos + (Backlog.dropped size n b.messages).flatten.length)
          free := q.free + (Backlog.dropped size n b.messages).flatten.length }) ∧
    (queueFree q pool (sub16 n q.free) ≠ none →
      HeadersFit size q.rpos (Backlog.dropped size n b.messages)) := by
  have hlt := h.size_lt
  have hfree := h.free_eq
  have hneed : sub16 n q.free = n - q.free := sub16_eq (by omega) (by omega)
  have hcount := length_le_flatten fun m hm => (h.messages m hm).pos h.size_pos
  have hbounded := b.bounded
  have hfuel : b.messages.length < 2 ^ 16 := by omega
  have hneeded : 0 + b.messages.flatten.length + n = n - q.free + size := by
    rw [Backlog.length] at hfree
    omega
  have hloop := queueFreeLoop_eq h.size_eq hlt h.pool_length h.size_pos hn hfuel h.rpos_lt
    h.messages h.bytes (by omega) hneeded
  rw [hneed, queueFree]
  constructor
  · intro hfits
    have hadd : add16 q.free (Backlog.dropped size n b.messages).flatten.length =
        q.free + (Backlog.dropped size n b.messages).flatten.length := by
      have hle := Backlog.length_dropped_add_kept size n b.messages
      rw [Backlog.length] at hfree
      exact add16_eq (by omega)
    rw [hloop.1 hfits, Option.map_some, Nat.zero_add]
    dsimp only
    rw [hadd]
  · intro hsome
    rw [ne_eq, Option.map_eq_none_iff] at hsome
    exact hloop.2 hsome

theorem slice_eq_take {α : Type*} (l : List α) (n : Nat) : slice l 0 n = l.take n := by
  rw [slice, List.drop_zero]

/-- The message is written behind the others. -/
theorem queueStore_eq {msg : Msg} (h : QueueOk q pool b) (hsize : msg.size ≤ 296) :
    (queueStore q pool msg).2 = putWrap pool q.wpos msg.message ∧
      (msg.size ≤ q.free → (queueStore q pool msg).1 =
        { q with wpos := wrap size (q.wpos + msg.size), free := q.free - msg.size }) := by
  have hlt := h.size_lt
  have hwpos : q.wpos < size := by
    rw [h.wpos_eq]
    have hfree := h.free_eq
    have hrpos := h.rpos_lt
    exact wrap_lt (by omega)
  have hfree := h.free_eq
  have hlength : msg.message.length = msg.size := by
    rw [Msg.message, List.length_take, msg.length_eq, Nat.min_eq_left hsize]
  have hremain : sub16 q.size q.wpos = size - q.wpos := by
    rw [h.size_eq]
    exact sub16_eq (Nat.le_of_lt hwpos) hlt
  unfold queueStore putWrap
  dsimp only
  rw [hremain, hlength, h.pool_length, slice_eq_take, slice_eq_take]
  by_cases htail : size - q.wpos ≤ msg.size
  · have hrest : sub16 msg.size (size - q.wpos) = msg.size - (size - q.wpos) :=
      sub16_eq htail (by omega)
    rw [if_pos htail, if_neg (by omega), hrest]
    refine ⟨?_, fun hroom => ?_⟩
    · rw [Msg.message, List.take_take, Nat.min_eq_left htail, List.drop_take]
      rfl
    · have hnext : msg.size - (size - q.wpos) = q.wpos + msg.size - size := by omega
      rw [sub16_eq hroom (by omega), wrap, if_neg (by omega), hnext]
  · rw [if_neg htail, if_pos (by omega)]
    refine ⟨rfl, fun hroom => ?_⟩
    rw [sub16_eq hroom (by omega), add16_eq (by omega), wrap, if_pos (by omega)]

theorem QueueOk.store (h : QueueOk q pool b) {msg : Msg} (hmsg : MessageOk size msg.message)
    (hlength : msg.message.length = msg.size) (hroom : b.length + msg.message.length ≤ size) :
    QueueOk (queueStore q pool msg).1 (queueStore q pool msg).2 (b.append msg.message hroom) := by
  have hfree := h.free_eq
  have hrpos := h.rpos_lt
  have hsmall := hmsg.small
  obtain ⟨hpool, hq⟩ := queueStore_eq h (Nat.le_trans (Nat.le_of_eq hlength.symm) hsmall)
  have hlenAppend : (b.append msg.message hroom).length = b.length + msg.message.length := by
    simp [Backlog.append, Backlog.length]
  have hputLength : (putWrap pool q.wpos msg.message).length = size := by
    rw [length_putWrap, h.pool_length]
    · rw [h.pool_length, h.wpos_eq]
      exact wrap_lt (by omega)
    · rw [h.pool_length]
      omega
  rw [hpool, hq (by omega)]
  refine ⟨h.size_eq, hputLength, h.size_pos, h.size_lt, hrpos, ?_, ?_, ?_, ?_⟩
  · dsimp only
    rw [h.wpos_eq, hlenAppend, hlength]
    unfold wrap
    split <;> split <;> split <;> omega
  · dsimp only
    omega
  · have hwindow := window_putWrap pool msg.message q.rpos b.length 0 (by rw [h.pool_length]; omega)
      (by rw [h.pool_length]; omega) (by rw [h.pool_length]; omega) (Nat.zero_le _)
      (by rw [h.pool_length]; omega)
    rw [h.pool_length, ← h.wpos_eq, Nat.add_zero, Nat.sub_zero, List.drop_zero, wrap,
      if_pos hrpos] at hwindow
    rw [hlenAppend]
    refine hwindow.trans ?_
    rw [h.bytes]
    simp [Backlog.append]
  · intro m hm
    rcases List.mem_append.mp hm with hold | hnew
    · exact h.messages m hold
    · rw [List.mem_singleton.mp hnew]
      exact hmsg

/-! ## One message -/

theorem LogCall.trueSize_bounds (call : LogCall) : 40 ≤ call.trueSize ∧ call.trueSize ≤ 296 := by
  unfold trueSize sizeofBflogMsg bflogLineBufferSize
  split <;> omega

theorem alignedSize_bounds {n : Nat} (hlow : 40 ≤ n) (hhigh : n ≤ 296) :
    40 ≤ alignedSize n ∧ alignedSize n ≤ 296 ∧ alignedSize n % 4 = 0 := by
  unfold alignedSize
  split <;> omega

theorem bflogMsg_size (call : LogCall) (area : Msg) :
    (bflogMsg call area).size = alignedSize call.trueSize := by
  obtain ⟨hlow, hhigh⟩ := call.trueSize_bounds
  obtain ⟨-, hsmall, -⟩ := alignedSize_bounds hlow hhigh
  exact Record.word_putWord_same _ (by decide) (Nat.lt_of_le_of_lt hsmall (by decide))

theorem ofLE_take_one (l : List UInt8) : ofLE (l.take 1) = ofLE (l.take 2) % 256 := by
  cases l with
  | nil => rfl
  | cons b l =>
    have hb := b.toNat_lt
    cases l with
    | nil => simp [ofLE]
    | cons c l => simp [ofLE]

theorem message_ok {msg : Msg} (hsize : 0 < size) (hlow : min sizeofBflogMsg size ≤ msg.size)
    (hhigh : msg.size ≤ 296) : msg.message.length = msg.size ∧ MessageOk size msg.message := by
  have hlength : msg.message.length = msg.size := by
    rw [Msg.message, List.length_take, msg.length_eq, Nat.min_eq_left hhigh]
  refine ⟨hlength, ?_, by rw [hlength]; exact hlow, by rw [hlength]; exact hhigh⟩
  have hword : ofLE (msg.bytes.take 2) = msg.size := by
    rw [← slice_eq_take]
    rfl
  rw [hlength, Msg.message, List.take_take]
  by_cases hone : msg.size = 1
  · rw [hone, show min 2 1 = 1 from rfl, ofLE_take_one, hword, hone]
  · unfold sizeofBflogMsg at hlow
    rw [Nat.min_eq_left (by omega), hword]

/-- What is stored of a record: all of it, or as much as the pool has room for. -/
theorem clampMsg_ok (hsize : 0 < size) (hlt : size < 2 ^ 16) (call : LogCall) (area : Msg) :
    (clampMsg size (bflogMsg call area)).size = min (alignedSize call.trueSize) size ∧
      (clampMsg size (bflogMsg call area)).message.length =
        (clampMsg size (bflogMsg call area)).size ∧
      MessageOk size (clampMsg size (bflogMsg call area)).message := by
  obtain ⟨hlow, hhigh⟩ := call.trueSize_bounds
  obtain ⟨hlarge, hsmall, -⟩ := alignedSize_bounds hlow hhigh
  have hrecord := bflogMsg_size call area
  have heq : (clampMsg size (bflogMsg call area)).size = min (alignedSize call.trueSize) size := by
    unfold clampMsg
    split
    · rename_i hcut
      rw [Nat.min_eq_right (by omega)]
      exact Record.word_putWord_same _ (by decide) hlt
    · omega
  exact ⟨heq, message_ok hsize (by rw [heq]; unfold sizeofBflogMsg; omega) (by omega)⟩

/-- The queue with room for `n` bytes. -/
def afterFree (size : Nat) (q : Queue) (n : Nat) (ms : List (List UInt8)) : Queue :=
  { q with
    rpos := wrap size (q.rpos + (Backlog.dropped size n ms).flatten.length)
    free := q.free + (Backlog.dropped size n ms).flatten.length }

theorem QueueOk.room_eq (h : QueueOk q pool b) {n : Nat} (hn : n ≤ size) :
    (HeadersFit size q.rpos (Backlog.dropped size n b.messages) →
      (if q.free < n then queueFree q pool (sub16 n q.free) else some q) =
        some (afterFree size q n b.messages)) ∧
    ((if q.free < n then queueFree q pool (sub16 n q.free) else some q) ≠ none →
      HeadersFit size q.rpos (Backlog.dropped size n b.messages)) := by
  by_cases hfull : q.free < n
  · rw [if_pos hfull]
    exact h.queueFree_eq hn hfull
  · have hfree := h.free_eq
    have hnone : Backlog.dropped size n b.messages = [] := by
      apply Backlog.dropped_eq_nil
      rw [Backlog.length] at hfree
      omega
    rw [if_neg hfull, afterFree, hnone]
    have hsame : wrap size (q.rpos + ([] : List (List UInt8)).flatten.length) = q.rpos := by
      rw [wrap, if_pos (by simpa using h.rpos_lt)]
      rfl
    rw [hsame]
    exact ⟨fun _ => rfl, fun _ => trivial⟩

theorem queueStore_rpos (q : Queue) (pool : List UInt8) (msg : Msg) :
    (queueStore q pool msg).1.rpos = q.rpos := by
  unfold queueStore
  dsimp only
  split <;> rfl

theorem QueueOk.put (h : QueueOk q pool b) {msg stored : Msg} (hclamp : clampMsg size msg = stored)
    (hmsg : MessageOk size stored.message) (hlength : stored.message.length = stored.size)
    (hsize : stored.message.length ≤ size) :
    (HeadersFit size q.rpos (Backlog.dropped size stored.message.length b.messages) →
      ∃ q' pool', queuePut q pool msg = some (q', pool') ∧
        q'.rpos = wrap size
          (q.rpos + (Backlog.dropped size stored.message.length b.messages).flatten.length) ∧
        QueueOk q' pool' (b.push stored.message hsize)) ∧
    (queuePut q pool msg ≠ none →
      HeadersFit size q.rpos (Backlog.dropped size stored.message.length b.messages)) := by
  obtain ⟨hroom, hback⟩ := h.room_eq hsize
  unfold queuePut
  rw [h.size_eq, hclamp]
  dsimp only
  rw [← hlength]
  constructor
  · intro hfits
    have hafter : QueueOk (afterFree size q stored.message.length b.messages) pool
        (b.makeRoom stored.message.length) :=
      h.drop (Backlog.dropped_append_kept _ _ _).symm
    rw [hroom hfits, Option.map_some]
    exact ⟨_, _, rfl, queueStore_rpos _ _ _,
      hafter.store hmsg hlength (Backlog.kept_fits hsize b.messages)⟩
  · intro hsome
    rw [ne_eq, Option.map_eq_none_iff] at hsome
    exact hback hsome

theorem blit_blit {α : Type*} (l a c : List α) :
    blit (blit l 0 a) a.length c = blit l 0 (a ++ c) := by
  unfold blit
  simp only [List.take_zero, List.nil_append, Nat.zero_add, List.length_append]
  rw [List.take_left, List.drop_append, List.drop_eq_nil_of_le (Nat.le_add_right _ _),
    List.nil_append, Nat.add_sub_cancel_left, List.drop_drop, List.append_assoc]

/-- The oldest message is loaded from `rpos`. -/
theorem queueLoad_eq (h : QueueOk q pool b) {m : List UInt8} {ms : List (List UInt8)}
    (hmessages : b.messages = m :: ms) (area : Msg) :
    queueLoad q pool m.length area = (wrap size (q.rpos + m.length), area.put 0 m) := by
  have hm := h.messages m (by rw [hmessages]; exact List.mem_cons_self)
  have hsmall := hm.small
  have hrpos := h.rpos_lt
  have hlt := h.size_lt
  have hpool := h.pool_length
  have hlen : b.length = m.length + ms.flatten.length := by
    rw [Backlog.length, hmessages]
    simp
  have hfits : m.length ≤ size := by
    have := h.free_eq
    omega
  have hwindow : window pool q.rpos m.length = m := by
    have htake := congrArg (List.take m.length) h.bytes
    rwa [window_take (by omega), hmessages, List.flatten_cons, List.take_left] at htake
  have hremain : sub16 q.size q.rpos = size - q.rpos := by
    rw [h.size_eq]
    exact sub16_eq (Nat.le_of_lt hrpos) hlt
  unfold queueLoad
  dsimp only
  rw [hremain]
  by_cases htail : size - q.rpos ≤ m.length
  · have hrest : sub16 m.length (size - q.rpos) = m.length - (size - q.rpos) :=
      sub16_eq htail (by omega)
    rw [if_pos htail, hrest, wrap, if_neg (by omega)]
    have hsplit : m = slice pool q.rpos (size - q.rpos) ++
        slice pool 0 (m.length - (size - q.rpos)) := by
      rw [slice, slice_eq_take, ← hpool, ← window_eq_append (by omega) (by omega), hwindow]
    have hfirst : (slice pool q.rpos (size - q.rpos)).length = size - q.rpos :=
      length_slice (by omega)
    have hsecond : (slice pool 0 (m.length - (size - q.rpos))).length =
        m.length - (size - q.rpos) := length_slice (by omega)
    refine Prod.ext (by dsimp only; omega) (Record.ext ?_)
    dsimp only
    rw [Record.bytes_put _ (by omega), Record.bytes_put _ (by omega), Record.bytes_put _ (by omega)]
    have hblit := blit_blit area.bytes (slice pool q.rpos (size - q.rpos))
      (slice pool 0 (m.length - (size - q.rpos)))
    rwa [hfirst, ← hsplit] at hblit
  · rw [if_neg htail, add16_eq (by omega), wrap, if_pos (by omega), slice, ← window_eq_take
      (by omega), hwindow]

theorem size_loaded {m : List UInt8} (hm : MessageOk size m) (hsize : 2 ≤ size) (area : Msg) :
    Msg.size (area.put 0 m) = m.length := by
  have hlarge := hm.large
  have hsmall := hm.small
  unfold sizeofBflogMsg at hlarge
  have hget := area.get_put_same 0 m (by omega)
  have hinside : slice (slice (area.put 0 m).bytes 0 m.length) 0 2 =
      slice (area.put 0 m).bytes 0 2 := slice_slice _ (by omega)
  rw [← Record.get, hget, slice_eq_take] at hinside
  rw [Msg.size, Record.word, Record.get, ← hinside, hm.header]

/-- The area holds the message that was loaded, and the terminator behind it. -/
theorem message_loaded {m : List UInt8} (hm : MessageOk size m) (hsize : 2 ≤ size) (area : Msg) :
    Msg.message ((area.put 0 m).put m.length [0]) = m := by
  have hlarge := hm.large
  have hsmall := hm.small
  unfold sizeofBflogMsg at hlarge
  have hword : ((area.put 0 m).put m.length [0]).word 0 2 = m.length := by
    rw [Record.word_put_disjoint _ (.inl (by omega))]
    exact size_loaded hm hsize area
  have hget : ((area.put 0 m).put m.length [0]).get 0 m.length = (area.put 0 m).get 0 m.length :=
    Record.get_put_disjoint _ (.inl (by omega))
  rw [area.get_put_same 0 m (by omega), Record.get, slice_eq_take] at hget
  rw [Msg.message, Msg.size, hword, hget]

theorem QueueOk.get_empty (h : QueueOk q pool b) (hempty : b.messages = []) (area : Msg) :
    queueGet q pool area = some (q, area.putWord 3 1 0xbd) := by
  have hfree := h.free_eq
  rw [Backlog.length, hempty] at hfree
  unfold queueGet
  rw [if_pos (by rw [h.size_eq]; exact hfree)]

theorem QueueOk.get_cons (h : QueueOk q pool b) {m : List UInt8} {ms : List (List UInt8)}
    (hmessages : b.messages = m :: ms) (area : Msg) :
    (q.rpos + 2 ≤ size ∧ m.length < 296 →
      ∃ q' area', queueGet q pool area = some (q', area') ∧ area'.message = m ∧
        q'.rpos = wrap size (q.rpos + m.length) ∧ QueueOk q' pool b.pop) ∧
    (queueGet q pool area ≠ none → q.rpos + 2 ≤ size ∧ m.length < 296) := by
  have hm := h.messages m (by rw [hmessages]; exact List.mem_cons_self)
  have hpos := hm.pos h.size_pos
  have hfree := h.free_eq
  have hlen : b.length = m.length + ms.flatten.length := by
    rw [Backlog.length, hmessages]
    simp
  have hbytes := h.bytes
  rw [Backlog.length, hmessages] at hbytes
  have hread := msgSizeAt_eq h.pool_length hm hbytes
  unfold queueGet
  rw [if_neg (by rw [h.size_eq]; omega), hread]
  constructor
  · rintro ⟨hfits, hsmall⟩
    rw [if_pos hfits, Option.bind_some, queueLoad_eq h hmessages]
    dsimp only
    rw [size_loaded hm (by omega), if_pos ⟨hm.small, hsmall⟩]
    have hlt := h.size_lt
    refine ⟨_, _, rfl, message_loaded hm (by omega) area, rfl, ?_⟩
    rw [add16_eq (by omega)]
    have hsplit : b.messages = [m] ++ b.pop.messages := by
      change b.messages = [m] ++ b.messages.tail
      rw [hmessages]
      rfl
    simpa using h.drop hsplit
  · intro hsome
    by_cases hfits : q.rpos + 2 ≤ size
    · refine ⟨hfits, ?_⟩
      rw [if_pos hfits, Option.bind_some, queueLoad_eq h hmessages] at hsome
      dsimp only at hsome
      rw [size_loaded hm (by omega)] at hsome
      by_contra hbig
      rw [if_neg fun hboth => hbig hboth.2] at hsome
      exact hsome rfl
    · rw [if_neg hfits] at hsome
      exact absurd rfl hsome

/-! ## Whole runs -/

inductive QueueOp
  | put (call : LogCall) (area : Msg)
  | get (area : Msg)

/-- What is kept of a record of `bflog`: the record, cut to the pool. -/
def stored (size : Nat) (call : LogCall) (area : Msg) : List UInt8 :=
  (clampMsg size (bflogMsg call area)).message

/-- The ring works as a backlog of the messages stored: what does not fit with
a new one is dropped, and the oldest is what the next load gives. -/
def QueueRunOk (size : Nat) : Queue → List UInt8 → Backlog UInt8 size → List QueueOp → Prop
  | q, _, b, [] => q.free + b.length = size
  | q, pool, b, .put call area :: ops =>
    q.free + b.length = size ∧
      ∃ q' pool', ∃ hfits : (stored size call area).length ≤ size,
        queuePut q pool (bflogMsg call area) = some (q', pool') ∧
          QueueRunOk size q' pool' (b.push (stored size call area) hfits) ops
  | q, pool, b, .get area :: ops =>
    q.free + b.length = size ∧
      ∃ q' area', queueGet q pool area = some (q', area') ∧
        (b.messages = [] → area' = area.putWord 3 1 0xbd) ∧
        (∀ m ∈ b.messages.head?, area'.message = m) ∧
        QueueRunOk size q' pool b.pop ops

/-- Messages are dropped and loaded only where their size does not lie across
the end of the pool, and loaded only with a byte to spare. -/
def SafeQueueRun (size : Nat) : Nat → List (List UInt8) → List QueueOp → Prop
  | _, _, [] => True
  | rpos, ms, .put call area :: ops =>
    let m := stored size call area
    HeadersFit size rpos (Backlog.dropped size m.length ms) ∧
      SafeQueueRun size (wrap size (rpos + (Backlog.dropped size m.length ms).flatten.length))
        (Backlog.kept size m.length ms ++ [m]) ops
  | rpos, ms, .get _ :: ops =>
    (∀ m ∈ ms.head?, rpos + 2 ≤ size ∧ m.length < 296) ∧
      SafeQueueRun size (wrap size (rpos + (ms.head?.getD []).length)) ms.tail ops

theorem QueueOk.runOk_iff (h : QueueOk q pool b) {ops : List QueueOp} :
    QueueRunOk size q pool b ops ↔ SafeQueueRun size q.rpos b.messages ops := by
  induction ops generalizing q pool b with
  | nil => exact ⟨fun _ => trivial, fun _ => h.free_eq⟩
  | cons op ops ih =>
    cases op with
    | put call area =>
      obtain ⟨hsize, hlength, hok⟩ := clampMsg_ok h.size_pos h.size_lt call area
      have hfits : (stored size call area).length ≤ size := by
        rw [stored, hlength, hsize]
        exact Nat.min_le_right _ _
      obtain ⟨hput, hback⟩ := h.put (rfl : clampMsg size (bflogMsg call area) = _) hok hlength hfits
      simp only [QueueRunOk, SafeQueueRun]
      constructor
      · rintro ⟨-, q', pool', _, hresult, hrun⟩
        have hheaders := hback (by rw [hresult]; exact Option.some_ne_none _)
        obtain ⟨q'', pool'', hresult', hrpos, hnext⟩ := hput hheaders
        obtain ⟨rfl, rfl⟩ := Prod.mk.inj (Option.some.inj (hresult.symm.trans hresult'))
        have hrest := (ih hnext).mp hrun
        rw [hrpos] at hrest
        exact ⟨hheaders, hrest⟩
      · rintro ⟨hheaders, hrun⟩
        obtain ⟨q', pool', hresult, hrpos, hnext⟩ := hput hheaders
        refine ⟨h.free_eq, q', pool', hfits, hresult, (ih hnext).mpr ?_⟩
        rw [hrpos]
        exact hrun
    | get area =>
      simp only [QueueRunOk, SafeQueueRun]
      rcases hmessages : b.messages with - | ⟨m, ms⟩
      · have hnext : QueueOk q pool b.pop := by
          have hsplit : b.messages = [] ++ b.pop.messages := by
            change b.messages = b.messages.tail
            rw [hmessages]
            rfl
          simpa [wrap, h.rpos_lt] using h.drop hsplit
        have hrest := ih hnext
        have hpop : b.pop.messages = [] := by
          change b.messages.tail = []
          rw [hmessages]
          rfl
        rw [hpop] at hrest
        rw [h.get_empty hmessages area]
        have hrpos : wrap size (q.rpos + (([] : List (List UInt8)).head?.getD []).length) =
            q.rpos := by
          rw [wrap, if_pos (by simpa using h.rpos_lt)]
          rfl
        rw [hrpos]
        constructor
        · rintro ⟨-, q', area', hresult, -, -, hrun⟩
          obtain ⟨rfl, rfl⟩ := Prod.mk.inj (Option.some.inj hresult)
          exact ⟨fun m hm => absurd hm (by simp), hrest.mp hrun⟩
        · rintro ⟨-, hrun⟩
          exact ⟨h.free_eq, q, _, rfl, fun _ => rfl, fun m hm => absurd hm (by simp),
            hrest.mpr hrun⟩
      · obtain ⟨hget, hback⟩ := h.get_cons hmessages area
        have hpop : b.pop.messages = ms := by
          change b.messages.tail = ms
          rw [hmessages]
          rfl
        simp only [List.head?_cons, Option.mem_some_iff, forall_eq', Option.getD_some,
          List.tail_cons]
        constructor
        · rintro ⟨-, q', area', hresult, -, -, hrun⟩
          have hsafe := hback (by rw [hresult]; exact Option.some_ne_none _)
          obtain ⟨q'', area'', hresult', -, hrpos, hnext⟩ := hget hsafe
          obtain ⟨rfl, rfl⟩ := Prod.mk.inj (Option.some.inj (hresult.symm.trans hresult'))
          have hrest := (ih hnext).mp hrun
          rw [hrpos, hpop] at hrest
          exact ⟨hsafe, hrest⟩
        · rintro ⟨hsafe, hrun⟩
          obtain ⟨q', area', hresult, hmessage, hrpos, hnext⟩ := hget hsafe
          refine ⟨h.free_eq, q', area', hresult, fun hempty => ?_, hmessage, (ih hnext).mpr ?_⟩
          · exact absurd hempty (List.cons_ne_nil m ms)
          · rw [hrpos, hpop]
            exact hrun

/-- A new queue holds nothing. -/
theorem newQueue_ok (hpos : 0 < size) (hlt : size < 2 ^ 16) (hpool : pool.length = size) :
    QueueOk (newQueue size) pool (Backlog.empty : Backlog UInt8 size) := by
  refine ⟨rfl, hpool, hpos, hlt, hpos, ?_, rfl, rfl, ?_⟩
  · exact (if_pos hpos).symm
  · intro m hm
    exact absurd hm List.not_mem_nil

/-- In a pool of whole words no size lies across the end. -/
theorem headersFit_of_aligned (haligned : size % 4 = 0) {ds : List (List UInt8)}
    (hds : ∀ m ∈ ds, m.length % 4 = 0 ∧ m.length ≤ size) {rpos : Nat} (hrpos : rpos < size)
    (hword : rpos % 4 = 0) : HeadersFit size rpos ds := by
  induction ds generalizing rpos with
  | nil => trivial
  | cons m ds ih =>
    obtain ⟨hm, hle⟩ := hds m List.mem_cons_self
    refine ⟨by omega, ih (fun m' hm' => hds m' (List.mem_cons_of_mem m hm')) (wrap_lt (by omega)) ?_⟩
    unfold wrap
    split <;> omega

theorem flatten_aligned {ms : List (List UInt8)} (h : ∀ m ∈ ms, m.length % 4 = 0) :
    ms.flatten.length % 4 = 0 := by
  induction ms with
  | nil => rfl
  | cons m ms ih =>
    have hm := h m List.mem_cons_self
    have hrest := ih fun m' hm' => h m' (List.mem_cons_of_mem m hm')
    rw [List.flatten_cons, List.length_append]
    omega

/-- Records that leave the message area a byte to spare. -/
def ShortRecords (ops : List QueueOp) : Prop :=
  ∀ call area, QueueOp.put call area ∈ ops → alignedSize call.trueSize < 296

/-- With a pool of whole words and short records every run is safe. -/
theorem safeQueueRun_of_aligned (haligned : size % 4 = 0) (hlt : size < 2 ^ 16)
    {ops : List QueueOp} (hshort : ShortRecords ops) {rpos : Nat} (hrpos : rpos < size)
    (hword : rpos % 4 = 0) {ms : List (List UInt8)} (hbounded : ms.flatten.length ≤ size)
    (hms : ∀ m ∈ ms, m.length % 4 = 0 ∧ m.length < 296) : SafeQueueRun size rpos ms ops := by
  induction ops generalizing rpos ms with
  | nil => trivial
  | cons op ops ih =>
    have hshortRest : ShortRecords ops := fun call area hmem =>
      hshort call area (List.mem_cons_of_mem op hmem)
    have hlen : ∀ m ∈ ms, m.length ≤ size := fun m hm =>
      Nat.le_trans (List.Sublist.length_le (List.sublist_flatten_of_mem hm)) hbounded
    cases op with
    | put call area =>
      obtain ⟨hlow, hhigh⟩ := call.trueSize_bounds
      obtain ⟨-, -, hcall⟩ := alignedSize_bounds hlow hhigh
      have hrecord := hshort call area List.mem_cons_self
      obtain ⟨hsize, hlength, -⟩ := clampMsg_ok (by omega : 0 < size) hlt call area
      have hstored : (stored size call area).length = min (alignedSize call.trueSize) size := by
        rw [stored, hlength, hsize]
      have hsplit := Backlog.dropped_append_kept size (stored size call area).length ms
      have hsum := Backlog.length_dropped_add_kept size (stored size call area).length ms
      have hfits := Backlog.kept_fits (by omega : (stored size call area).length ≤ size) ms
      have hdropped : ∀ m ∈ Backlog.dropped size (stored size call area).length ms, m ∈ ms :=
        fun m hm => hsplit ▸ List.mem_append_left _ hm
      have hkept : ∀ m ∈ Backlog.kept size (stored size call area).length ms, m ∈ ms :=
        fun m hm => hsplit ▸ List.mem_append_right _ hm
      have htotal := flatten_aligned fun m hm => (hms m (hdropped m hm)).1
      refine ⟨headersFit_of_aligned haligned (fun m hm => ?_) hrpos hword,
        ih hshortRest (wrap_lt (by omega)) ?_ ?_ fun m hm => ?_⟩
      · exact ⟨(hms m (hdropped m hm)).1, hlen m (hdropped m hm)⟩
      · unfold wrap
        split <;> omega
      · simpa using hfits
      · rcases List.mem_append.mp hm with hold | hnew
        · exact hms m (hkept m hold)
        · rw [List.mem_singleton.mp hnew]
          omega
    | get area =>
      cases ms with
      | nil =>
        refine ⟨fun m hm => absurd hm (by simp), ih hshortRest (wrap_lt ?_) ?_ hbounded hms⟩
        · simpa using by omega
        · rw [wrap, if_pos (by simpa using hrpos)]
          simpa using hword
      | cons m ms =>
        obtain ⟨hm, hsmall⟩ := hms m List.mem_cons_self
        have hle := hlen m List.mem_cons_self
        have hrest : ms.flatten.length ≤ size := by
          rw [List.flatten_cons, List.length_append] at hbounded
          omega
        refine ⟨fun m' hm' => ?_, ih hshortRest (wrap_lt ?_) ?_ hrest
          fun m' hm' => hms m' (List.mem_cons_of_mem m hm')⟩
        · rw [List.head?_cons, Option.mem_some_iff] at hm'
          subst hm'
          exact ⟨by omega, hsmall⟩
        · rw [List.head?_cons, Option.getD_some]
          omega
        · rw [List.head?_cons, Option.getD_some]
          unfold wrap
          split <;> omega

/-- From its creation the ring works as a backlog of whole messages, in every
safe run. -/
theorem queue_refines_backlog (size : Nat) (hpos : 0 < size) (hlt : size < 2 ^ 16)
    (pool : List UInt8) (hpool : pool.length = size) (ops : List QueueOp)
    (hsafe : SafeQueueRun size 0 [] ops) :
    QueueRunOk size (newQueue size) pool Backlog.empty ops :=
  (newQueue_ok hpos hlt hpool).runOk_iff.mpr hsafe

/-- A call that logs `n` characters. -/
def logText (n : Nat) : LogCall :=
  { flags := 0xff, level := 3, tag := 0, file := 0x2000, func := 0x2010, line := 7, clk := 0,
    time := 0, thread := 0x2020, written := List.replicate n 0x61 ++ [0], ret := n }

theorem queue_refines_short_text :
    QueueRunOk 128 (newQueue 128) (List.replicate 128 0) Backlog.empty
      [.put (logText 5) (Record.zero 296), .get (Record.zero 296)] := by
  refine queue_refines_backlog 128 (by decide) (by decide) _ List.length_replicate _ ?_
  refine safeQueueRun_of_aligned (by decide) (by decide) ?_ (by decide) (by decide) (by decide)
    (by simp)
  intro call area hmem
  simp only [List.mem_cons, QueueOp.put.injEq, reduceCtorEq, List.not_mem_nil, or_false] at hmem
  rw [hmem.1]
  decide

/-- A record larger than the pool is not the message that comes out. -/
theorem long_record_cut :
    ((queuePut (newQueue 64) (List.replicate 64 0) (bflogMsg (logText 100) (Record.zero 296))).bind
        fun r => queueGet r.1 r.2 (Record.zero 296)).map
      (fun r => decide (r.2.message = (bflogMsg (logText 100) (Record.zero 296)).message)) =
      some false := by
  decide +kernel

end BouffaloSdk.Bflog
