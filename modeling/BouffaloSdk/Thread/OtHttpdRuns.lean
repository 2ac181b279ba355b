import BouffaloSdk.Kit.Runs
import BouffaloSdk.Thread.OtHttpdRequests

/-!
# Requests on one connection

What a REST server owes a client is a queue: the bytes that have come wait until they hold the
whole of the next request, which is dispatched once the response before it is sent. The
connection is compared with it step by step.
-/

namespace BouffaloSdk.OtHttpd

open Kit.Runs

/-- A dispatched request. -/
structure Call where
  method : Bytes
  uri : Bytes
  body : Option Bytes
  deriving DecidableEq

def Request.call (r : Request) : Call := ⟨r.method, r.uri, if r.body = [] then none else some r.body⟩

def RestRequest.call (q : RestRequest) : Call := ⟨q.method.name, q.uri, q.body⟩

/-! ## The server as it is meant -/

/-- The requests that are still to be dispatched, and the bytes of them that have come. -/
structure Server where
  due : List Request
  pending : Bytes
  log : List Call
  busy : Bool
  deriving DecidableEq

/-- The next request, once it is whole and no response is being sent. -/
def Server.dispatch (v : Server) (served : Served) : Server :=
  match v.due with
  | [] => v
  | r :: more =>
    if v.busy = false ∧ r.encode.length ≤ v.pending.length then
      ⟨more, v.pending.drop r.encode.length, v.log ++ [r.call], served ≠ .failed⟩
    else v

def Server.recv (v : Server) (bytes : Bytes) (served : Served) : Server :=
  { v with pending := v.pending ++ bytes }.dispatch served

def Server.sent (v : Server) (served : Served) : Server := { v with busy := false }.dispatch served

/-! ## The connection beside it -/

/-- The connection, `none` once it is closed, what it answered and what it dispatched; and the
server as it is meant. -/
structure World where
  conn : Option HttpState
  reply : Option Err
  log : List Call
  faulted : Bool
  server : Server
  deriving DecidableEq

/-- A chain of buffers comes, or the response has been sent. -/
inductive Event where
  | recv (inp : List Bytes) (served : Served)
  | sent (served : Served)

def World.start (requests : List Request) : World :=
  ⟨some httpStateInit, none, [], false, ⟨requests, [], [], false⟩⟩

def stream (requests : List Request) : Bytes := requests.flatMap Request.encode

/-- What comes is the stream of the requests, in any buffers. -/
def World.step (w : World) : Event → Option World
  | .recv inp served =>
    w.conn.bind fun hs =>
      if w.faulted = false ∧ inp ≠ [] ∧ w.server.pending ++ inp.flatten <+: stream w.server.due then
        match httpRecv served inp hs with
        | none => some { w with faulted := true }
        | some (hs, err, call) => some
          { conn := some hs
            reply := some err
            log := w.log ++ call.toList.map RestRequest.call
            faulted := false
            server := w.server.recv inp.flatten served }
      else none
  | .sent served =>
    w.conn.bind fun hs =>
      if w.faulted = false ∧ hs.handle then
        match httpEof served hs with
        | none => some { w with faulted := true }
        | some (conn, call) => some
          { conn
            reply := none
            log := w.log ++ call.toList.map RestRequest.call
            faulted := false
            server := w.server.sent served }
      else none

def World.bytes (w : World) : Bytes := (w.conn.elim [] HttpState.req).flatten

def World.sending (w : World) : Bool := w.conn.elim false HttpState.handle

/-- The connection has dispatched what the server has, and holds what follows. -/
structure Matches (w : World) : Prop where
  faulted : w.faulted = false
  log : w.log = w.server.log
  bytes : w.bytes = w.server.pending
  sending : w.sending = w.server.busy

/-- After the step the connection matches, and a request that is not whole is in progress. -/
def Kept (w : World) (e : Event) (w' : World) : Prop :=
  Matches w' ∧ ∀ inp served, e = .recv inp served → w'.server.busy = false →
    w'.server.log = w.server.log → w'.reply = some .inProgress

/-- What comes does so while no response is being sent; with it the whole head of the next
request has come and nothing of the one after; and the request is plain. -/
def Readable (w : World) (e : Event) (_ : World) : Prop :=
  ∀ inp served, e = .recv inp served → w.server.busy = false ∧
    ∃ r more, w.server.due = r :: more ∧ Plain r ∧
      r.head.length ≤ (w.server.pending ++ inp.flatten).length ∧
      (w.server.pending ++ inp.flatten).length ≤ r.encode.length

variable {w w' : World} {hs : HttpState} {e : Event} {r : Request} {more : List Request}
variable {inp chain : List Bytes} {served : Served} {v : Server} {n : Nat}

/-! ## The queue -/

theorem dispatch_whole (hdue : v.due = r :: more) (hbusy : v.busy = false)
    (hwhole : v.pending = r.encode) :
    v.dispatch served = ⟨more, [], v.log ++ [r.call], served ≠ .failed⟩ := by
  rw [Server.dispatch, hdue]
  dsimp only
  rw [if_pos ⟨hbusy, by rw [hwhole]⟩, hwhole, List.drop_length]

theorem dispatch_waits (hdue : v.due = r :: more) (hshort : v.pending.length < r.encode.length) :
    v.dispatch served = v := by
  rw [Server.dispatch, hdue]
  exact if_neg fun h => absurd h.2 (Nat.not_le.mpr hshort)

theorem encode_pos (r : Request) : 0 < r.encode.length := by
  rw [length_encode, Request.head, List.length_append, length_crlf]
  omega

theorem dispatch_empty (hpending : v.pending = []) : v.dispatch served = v := by
  cases hdue : v.due with
  | nil => rw [Server.dispatch, hdue]
  | cons r more =>
    apply dispatch_waits hdue
    rw [hpending]
    exact encode_pos r

/-! ## The chain -/

/-- Buffers that are no longer than the request are all freed. -/
theorem consume_all (h : ∀ p ∈ chain, p.length ≤ n) : consume n chain = [] := by
  induction chain with
  | nil => rfl
  | cons p chain ih =>
    rw [consume, if_neg (Nat.not_lt.mpr (h p List.mem_cons_self))]
    exact ih fun q hq => h q (List.mem_cons_of_mem p hq)

theorem length_le_flatten {p : Bytes} (h : p ∈ chain) : p.length ≤ chain.flatten.length :=
  (List.sublist_flatten_of_mem h).length_le

theorem consume_whole (chain : List Bytes) : consume chain.flatten.length chain = [] :=
  consume_all fun _ hp => length_le_flatten hp

theorem length_consume (n : Nat) (chain : List Bytes) :
    (consume n chain).flatten.length + n ≤ chain.flatten.length ∨ consume n chain = [] := by
  induction chain with
  | nil => exact .inr rfl
  | cons p chain ih =>
    rw [consume]
    split
    · left
      simp only [List.flatten_cons, List.length_append, List.length_take, List.length_drop]
      omega
    · rcases ih with hle | hnil
      · left
        rw [List.flatten_cons, List.length_append]
        omega
      · exact .inr hnil

/-- The first buffer is longer than the request. -/
theorem consume_first_iff {p : Bytes} (hp : n < p.length) :
    (consume n (p :: chain)).flatten = (p :: chain).flatten.drop n ↔ p.drop (n + n) <+: p.drop n := by
  have hsplit : (p.drop n).take n ++ p.drop (n + n) = p.drop n := by
    rw [← List.drop_drop]
    exact List.take_append_drop n (p.drop n)
  rw [consume, if_pos hp, List.flatten_cons, List.flatten_cons,
    List.drop_append_of_le_length (Nat.le_of_lt hp), List.append_left_inj]
  have hlen : p.length - n = ((p.drop n).take n).length + (p.drop (n + n)).length := by
    rw [← List.length_append, hsplit, List.length_drop]
  rw [hlen, List.take_length_add_append]
  conv_lhs => rhs; rw [← hsplit]
  rw [List.append_right_inj]
  constructor
  · intro h
    exact h ▸ List.take_prefix _ _
  · intro h
    exact List.prefix_iff_eq_take.mp h |>.symm

/-- What is left is what follows the request if and only if nothing does, or the first buffer
holds the request with bytes behind it that are the same from one request's length to the next. -/
theorem consume_eq_drop_iff (hne : ∀ p ∈ chain, p ≠ []) :
    (consume n chain).flatten = chain.flatten.drop n ↔
      chain.flatten.length ≤ n ∨
        ∃ p tail, chain = p :: tail ∧ n < p.length ∧ p.drop (n + n) <+: p.drop n := by
  cases chain with
  | nil => simp [consume]
  | cons p tail =>
    have hlen : (p :: tail).flatten.length = p.length + tail.flatten.length := by
      rw [List.flatten_cons, List.length_append]
    by_cases hp : n < p.length
    · rw [consume_first_iff hp]
      constructor
      · exact fun h => .inr ⟨p, tail, rfl, hp, h⟩
      · rintro (hle | ⟨p', tail', heq, -, hprefixed⟩)
        · omega
        · cases heq
          exact hprefixed
    · have hpos := List.length_pos_iff.mpr (hne p List.mem_cons_self)
      have hskip : consume n (p :: tail) = consume n tail := by
        rw [consume, if_neg hp]
      constructor
      · intro heq
        refine .inl (Nat.not_lt.mp fun hlt => ?_)
        have hlong := congrArg List.length heq
        rw [hskip, List.length_drop] at hlong
        rcases length_consume n tail with hle | hnil
        · omega
        · rw [hnil, List.flatten_nil, List.length_nil] at hlong
          omega
      · rintro (hle | ⟨p', tail', heq, hlt, -⟩)
        · have hall : consume n (p :: tail) = [] :=
            consume_all fun q hq => Nat.le_trans (length_le_flatten hq) hle
          rw [hall, List.drop_eq_nil_of_le hle]
          rfl
        · cases heq
          exact absurd hlt hp

/-! ## The steps -/

/-- What has come is the head of the next request and some of its body. -/
theorem received_eq {data : Bytes} (hprefixed : data <+: r.encode) (hhead : r.head.length ≤ data.length) :
    ∃ part, data = r.head ++ part ∧ part <+: r.body := by
  obtain ⟨rest, hrest⟩ := hprefixed
  obtain ⟨part, rfl⟩ : r.head <+: data :=
    List.prefix_of_prefix_length_le ⟨r.body, rfl⟩ ⟨rest, hrest⟩ hhead
  refine ⟨part, rfl, rest, ?_⟩
  rw [Request.encode, List.append_assoc] at hrest
  exact List.append_cancel_left hrest

/-- What holds between the steps. -/
structure Inv (w : World) : Prop extends Matches w where
  wellFormed : ∀ r ∈ w.server.due, WellFormed r
  drained : w.server.busy → w.server.pending = []
  freed : ∀ hs, w.conn = some hs → hs.handle → hs.req = []

theorem inv_start {requests : List Request} (h : ∀ r ∈ requests, WellFormed r) :
    Inv (World.start requests) :=
  { faulted := rfl
    log := rfl
    bytes := rfl
    sending := rfl
    wellFormed := h
    drained := fun hbusy => absurd hbusy Bool.false_ne_true
    freed := fun hs hconn hhandle => by
      cases hconn
      cases hhandle }

/-- With nothing behind the request the connection is open for the next, or closed. -/
theorem httpEof_drained (hreq : hs.req = []) :
    httpEof served hs =
      some (if hs.keepalive then some { httpStateInit with keepalive := true } else none, none) := by
  rw [httpEof, if_neg (fun h => h.2 hreq)]
  rfl

theorem sent_kept (hinv : Inv w) (hstep : w.step (.sent served) = some w') :
    Kept w (.sent served) w' ∧ Inv w' := by
  cases hconn : w.conn with
  | none =>
    rw [World.step, hconn] at hstep
    cases hstep
  | some hs =>
    rw [World.step, hconn, Option.bind_some] at hstep
    split at hstep
    · rename_i hsending
      have hreq := hinv.freed hs hconn hsending.2
      have hbusy : w.server.busy = true := by
        rw [← hinv.sending, World.sending, hconn]
        exact hsending.2
      have hpending := hinv.drained hbusy
      have hserver : w.server.sent served = { w.server with busy := false } :=
        dispatch_empty hpending
      rw [httpEof_drained hreq, hserver] at hstep
      cases hstep
      have hmatches : Matches (World.mk
          (if hs.keepalive then some { httpStateInit with keepalive := true } else none) none
          (w.log ++ []) false { w.server with busy := false }) := by
        refine ⟨rfl, (List.append_nil _).trans hinv.log, ?_, ?_⟩
        · change _ = w.server.pending
          rw [hpending, World.bytes]
          dsimp only
          split <;> rfl
        · rw [World.sending]
          dsimp only
          split <;> rfl
      refine ⟨⟨hmatches, fun _ _ h => Event.noConfusion h⟩,
        { hmatches with
          wellFormed := hinv.wellFormed
          drained := fun h => absurd h Bool.false_ne_true
          freed := fun hs' hopen hhandle => ?_ }⟩
      dsimp only at hopen
      split at hopen <;> cases hopen
      cases hhandle
    · cases hstep

/-- With some of the body the buffers are kept. -/
theorem httpRecv_part {part : Bytes} (hidle : hs.handle = false) (h : WellFormed r)
    (hplain : Plain r) (hdata : (hs.req ++ inp).flatten = r.head ++ part)
    (hpart : part.length < r.body.length) :
    httpRecv served inp hs =
      some ({ hs with req := hs.req ++ inp, reqLen := UInt16.ofNat r.encode.length },
        .inProgress, none) := by
  have hnot : ¬ hs.handle = true := by
    rw [hidle]
    exact Bool.false_ne_true
  rw [httpRecv, if_neg hnot, httpParseRequest, if_neg hnot]
  dsimp only
  rw [hdata, parseBuffer_inProgress h hplain hpart]

/-- With the whole of it the request is dispatched and all buffers are freed. -/
theorem httpRecv_whole (hidle : hs.handle = false) (h : WellFormed r) (hplain : Plain r)
    (hdata : (hs.req ++ inp).flatten = r.encode) :
    ∃ hs' err q, httpRecv served inp hs = some (hs', err, some q) ∧ q.call = r.call ∧
      hs'.req = [] ∧ hs'.handle = decide (served ≠ .failed) := by
  have hnot : ¬ hs.handle = true := by
    rw [hidle]
    exact Bool.false_ne_true
  obtain ⟨m, accept, keepalive, hmethod, hparse⟩ := parseBuffer_encode h hplain
  have hcall : RestRequest.call ⟨m, accept, r.uri, if r.body = [] then none else some r.body⟩ =
      r.call := by
    rw [RestRequest.call, Request.call, hmethod]
  rw [httpRecv, if_neg hnot, httpParseRequest, if_neg hnot]
  dsimp only
  rw [hdata, hparse]
  dsimp only
  by_cases hserved : served = .failed
  · rw [if_pos hserved]
    refine ⟨_, _, _, rfl, hcall, rfl, ?_⟩
    rw [hserved]
    exact hidle
  · rw [if_neg hserved]
    refine ⟨_, _, _, rfl, hcall, ?_, (decide_eq_true hserved).symm⟩
    have hlen : (UInt16.ofNat r.encode.length).toNat = (hs.req ++ inp).flatten.length := by
      rw [hdata, UInt16.toNat_ofNat']
      exact Nat.mod_eq_of_lt hplain.short
    dsimp only
    rw [hlen]
    exact consume_whole _

/-- The code and the server on what has come of a plain request. -/
theorem recv_kept (hinv : Inv w) (hstep : w.step (.recv inp served) = some w')
    (hread : Readable w (.recv inp served) w') : Kept w (.recv inp served) w' ∧ Inv w' := by
  obtain ⟨hbusy, r, more, hdue, hplain, hhead, hmost⟩ := hread inp served rfl
  cases hconn : w.conn with
  | none =>
    rw [World.step, hconn] at hstep
    cases hstep
  | some hs =>
    rw [World.step, hconn, Option.bind_some] at hstep
    split at hstep
    swap
    · cases hstep
    · rename_i hstream
      have hwf := hinv.wellFormed r (hdue ▸ List.mem_cons_self)
      have hidle : hs.handle = false := by
        rw [← hbusy, ← hinv.sending, World.sending, hconn]
        rfl
      have hbytes : (hs.req ++ inp).flatten = w.server.pending ++ inp.flatten := by
        rw [List.flatten_append, ← hinv.bytes, World.bytes, hconn]
        rfl
      have hfirst : r.encode <+: stream w.server.due := by
        rw [hdue]
        exact ⟨stream more, rfl⟩
      obtain ⟨part, hdata, hpart⟩ := received_eq
        (List.prefix_of_prefix_length_le hstream.2.2 hfirst hmost) hhead
      rw [hdata] at hbytes
      have hreceived : w.server.recv inp.flatten served =
          { w.server with pending := r.head ++ part }.dispatch served := by
        rw [Server.recv, hdata]
      by_cases hshort : part.length < r.body.length
      · have hwaits : (r.head ++ part).length < r.encode.length := by
          rw [length_encode, List.length_append]
          omega
        have hserver : Server.dispatch { w.server with pending := r.head ++ part } served =
            { w.server with pending := r.head ++ part } := dispatch_waits hdue hwaits
        rw [httpRecv_part hidle hwf hplain hbytes hshort, hreceived, hserver] at hstep
        cases hstep
        have hmatches : Matches (World.mk (some { hs with
            req := hs.req ++ inp, reqLen := UInt16.ofNat r.encode.length }) (some .inProgress)
            (w.log ++ []) false { w.server with pending := r.head ++ part }) :=
          ⟨rfl, (List.append_nil _).trans hinv.log, hbytes, hidle.trans hbusy.symm⟩
        refine ⟨⟨hmatches, fun _ _ _ _ _ => rfl⟩,
          { hmatches with
            wellFormed := hinv.wellFormed
            drained := fun h => absurd (hbusy.symm.trans h) Bool.false_ne_true
            freed := fun hs' hopen hhandle => ?_ }⟩
        cases hopen
        exact absurd (hidle.symm.trans hhandle) Bool.false_ne_true
      · have hbody : part = r.body :=
          hpart.eq_of_length_le (Nat.not_lt.mp hshort)
        rw [hbody] at hbytes hreceived
        have hserver : Server.dispatch { w.server with pending := r.head ++ r.body } served =
            ⟨more, [], w.server.log ++ [r.call], served ≠ .failed⟩ := dispatch_whole hdue hbusy rfl
        obtain ⟨hs', err, q, hrecv, hcall, hreq, hhandle⟩ :=
          @httpRecv_whole _ _ _ served hidle hwf hplain hbytes
        rw [hrecv, hreceived, hserver] at hstep
        cases hstep
        have hmatches : Matches (World.mk (some hs') (some err) (w.log ++ [q.call]) false
            ⟨more, [], w.server.log ++ [r.call], served ≠ .failed⟩) := by
          refine ⟨rfl, ?_, ?_, hhandle⟩
          · dsimp only
            rw [hinv.log, hcall]
          · rw [World.bytes]
            dsimp only [Option.elim]
            rw [hreq]
            rfl
        refine ⟨⟨hmatches, fun _ _ _ _ hsame => ?_⟩,
          { hmatches with
            wellFormed := fun r' hr' => hinv.wellFormed r' (hdue ▸ List.mem_cons_of_mem r hr')
            drained := fun _ => rfl
            freed := fun hs'' hopen _ => ?_ }⟩
        · have hlen := congrArg List.length hsame
          rw [List.length_append, List.length_singleton] at hlen
          exact absurd hlen (Nat.succ_ne_self _)
        · cases hopen
          exact hreq

theorem step_kept (w : World) (e : Event) (w' : World) (hinv : Inv w) (hstep : w.step e = some w')
    (hread : Readable w e w') : Kept w e w' ∧ Inv w' := by
  cases e with
  | recv inp served => exact recv_kept hinv hstep hread
  | sent served => exact sent_kept hinv hstep

def getNode : Request :=
  ⟨ascii "GET", ascii "/node", ascii "HTTP/1.1", [ascii "Host: a", ascii "Connection: keep-alive"], []⟩

def putState : Request :=
  ⟨ascii "PUT", ascii "/node/state", ascii "HTTP/1.1",
    [ascii "Content-Length: 7", ascii "Host: a"], ascii "disable"⟩

theorem getNode_wellFormed : WellFormed getNode := by
  constructor <;> decide +kernel

theorem putState_wellFormed : WellFormed putState := by
  constructor <;> decide +kernel

theorem getNode_plain : Plain getNode where
  method := ⟨.get, rfl⟩
  uri := by decide
  line := by decide
  spelled := by
    intro line hline his
    exact absurd (⟨line, hline, his⟩ : ∃ line ∈ getNode.headers, isContentLength line = true)
      (by decide)
  alone := by decide
  read := by decide
  last := by decide
  body := by decide
  short := by decide

theorem putState_plain : Plain putState where
  method := ⟨.put, rfl⟩
  uri := by decide
  line := by decide
  spelled := by
    intro line hline his
    rcases List.mem_cons.mp hline with rfl | hlast
    · exact ⟨[55], rfl, by decide⟩
    · exact absurd (⟨line, hlast, his⟩ : ∃ line ∈ [ascii "Host: a"], isContentLength line = true)
        (by decide)
  alone := by decide
  read := by decide
  last := by decide
  body := by decide
  short := by decide

def twoRequests : World := World.start [getNode, putState]

/-- The first in two buffers, and its response; the second with some of its body, and the rest. -/
def inBuffers : List Event :=
  [.recv [getNode.encode.take 20, getNode.encode.drop 20] .response, .sent .response,
    .recv [putState.head ++ ascii "dis"] .response, .recv [ascii "ab", ascii "le"] .response]

/-- The worlds of the run. -/
def World.next (w : World) (e : Event) : World := (w.step e).getD w

theorem step_next (h : (w.step e).isSome) : w.step e = some (w.next e) := by
  rw [World.next]
  cases hstep : w.step e with
  | none => rw [hstep] at h; cases h
  | some w' => rfl

end BouffaloSdk.OtHttpd
