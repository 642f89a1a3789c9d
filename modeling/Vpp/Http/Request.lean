import Vpp.Lib.Run

/-!
# Requests of the HTTP server

`state_srv_wait_method` reads what the transport has received, looks for a method and hands the rest of
the request line to the application. The length of what it hands over is an unsigned difference: it wraps
if nothing stands between the two marks of a GET, or nothing after the mark of a POST.
-/

namespace Vpp.Http

open Lib BitVec

abbrev Byte := BitVec 8

abbrev U32 := BitVec 32

inductive HttpState
  | waitMethod
  | waitApp
  | ioMoreData
deriving DecidableEq, Repr

inductive ReqMethod
  | get
  | post
deriving DecidableEq, Repr

inductive StatusCode
  | badRequest
  | methodNotAllowed
deriving DecidableEq, Repr

inductive SmResult
  | stop
  | continue
  | error
deriving DecidableEq, Repr

inductive MsgType
  | request
  | reply
deriving DecidableEq, Repr

inductive MsgDataType
  | inline
  | ptr
deriving DecidableEq, Repr

inductive ContentType
  | textHtml
deriving DecidableEq, Repr

/-- `http_msg_t` -/
structure Msg where
  type : MsgType
  methodType : ReqMethod
  contentType : ContentType
  dataType : MsgDataType
  dataLen : BitVec 64
deriving DecidableEq, Repr

def sizeofMsg : Nat := 32

/-- A connection of the server with the received bytes that it has not read. Indices into `rx_buf` are `int`.
-/
structure Conn where
  httpState : HttpState
  method : ReqMethod
  rxBuf : List Byte
  rxBufOffset : U32
  tsRxFifo : List Byte
  rxBuf_lt : rxBuf.length < 2 ^ 31

/-- The receive fifo of the application: its space, and if it gets the chunks it asks for. -/
structure AppFifo where
  freeCount : U32
  canGrow : Bool
deriving DecidableEq, Repr

def svmFifoEfull : Int := -2

def svmFifoEgrow : Int := -4

/-- What `svm_fifo_enqueue_segments` returns for a header and `len` bytes, not written partially. -/
def AppFifo.svmFifoEnqueueSegments (app : AppFifo) (len : U32) : Int :=
  let total := BitVec.ofNat 32 sizeofMsg + len
  if app.freeCount = 0 then svmFifoEfull
  else if app.freeCount < total then svmFifoEfull
  else if !app.canGrow then svmFifoEgrow
  else total.toInt

/-- A call of `svm_fifo_enqueue_segments`: header, region of `rx_buf`, and result. -/
structure Request where
  msg : Msg
  offset : U32
  len : U32
  rv : Int
deriving DecidableEq, Repr

/-- What a call of the state function does besides the connection. -/
structure Outcome where
  result : SmResult
  sentError : Option StatusCode
  request : Option Request
deriving DecidableEq, Repr

/-! ## The state function -/

/-- `"GET "` -/
def getMark : List Byte := [0x47, 0x45, 0x54, 0x20]

/-- `"HTTP"` -/
def httpMark : List Byte := [0x48, 0x54, 0x54, 0x50]

/-- `"POST "` -/
def postMark : List Byte := [0x50, 0x4f, 0x53, 0x54, 0x20]

/-- The first place from `offset` on; the last one that would fit is not looked at. -/
def vFindIndex (vec : List Byte) (offset : Nat) (str : List Byte) : Option Nat :=
  if vec.length ≤ str.length then none
  else
    (List.range' offset (vec.length - str.length - offset)).find? fun i =>
      (vec.drop i).take str.length == str

/-- Method, offset and length of the request in `rx_buf`, or the error for the peer. -/
def parseRequest (rxBuf : List Byte) : Except StatusCode (ReqMethod × U32 × U32) :=
  if rxBuf.length < 8 then .error .badRequest
  else
    match vFindIndex rxBuf 0 getMark with
    | some i =>
      match vFindIndex rxBuf (i + 5) httpMark with
      | some j => .ok (.get, BitVec.ofNat 32 (i + 5), BitVec.ofNat 32 j - BitVec.ofNat 32 (i + 5) - 1)
      | none => .error .badRequest
    | none =>
      match vFindIndex rxBuf 0 postMark with
      | some i =>
        .ok (.post, BitVec.ofNat 32 (i + 6),
          BitVec.ofNat 32 rxBuf.length - BitVec.ofNat 32 (i + 6) - 1)
      | none => .error .methodNotAllowed

namespace Conn

variable (hc : Conn)

/-- Takes all that the transport has received; `none` if that is nothing, or more than a vector takes. -/
def readHttpMessage : Option Conn :=
  if hc.tsRxFifo = [] then none
  else if h : (hc.rxBuf ++ hc.tsRxFifo).length < 2 ^ 31 then
    some { hc with rxBuf := hc.rxBuf ++ hc.tsRxFifo, tsRxFifo := [], rxBuf_lt := h }
  else none

def requestMsg (method : ReqMethod) (len : U32) : Msg := ⟨.request, method, .textHtml, .inline, len.setWidth 64⟩

def stateSrvWaitMethod (app : AppFifo) : Conn × Outcome :=
  match hc.readHttpMessage with
  | none => (hc, ⟨.stop, none, none⟩)
  | some hc =>
    match parseRequest hc.rxBuf with
    | .error ec => (hc, ⟨.error, some ec, none⟩)
    | .ok (method, offset, len) =>
      let hc := { hc with method := method, rxBufOffset := offset }
      let rv := app.svmFifoEnqueueSegments len
      let request : Request := ⟨requestMsg method len, offset, len, rv⟩
      if rv < 0 ∨ rv ≠ sizeofMsg + len.toNat then (hc, ⟨.error, none, some request⟩)
      else
        ({ hc with rxBuf := [], httpState := .waitApp, rxBuf_lt := by decide },
          ⟨.stop, none, some request⟩)

end Conn

/-! ## One call -/

/-- There is something between the marks of a GET, or after the mark of a POST. -/
def MarksApart (rxBuf : List Byte) : Prop :=
  match vFindIndex rxBuf 0 getMark with
  | some i => vFindIndex rxBuf (i + 5) httpMark ≠ some (i + 5)
  | none =>
    match vFindIndex rxBuf 0 postMark with
    | some i => i + 6 < rxBuf.length
    | none => True

/-- The region lies in `rx_buf`, the header has its length, and so many bytes follow it. -/
structure Request.Inside (r : Request) (rxBuf : List Byte) : Prop where
  region : r.offset.toNat + r.len.toNat ≤ rxBuf.length
  dataLen : r.msg.dataLen.toNat = r.len.toNat
  enqueued : 0 ≤ r.rv → r.rv = sizeofMsg + r.msg.dataLen.toNat

variable {rxBuf str : List Byte} {offset i : Nat}

theorem vFindIndex_bounds (h : vFindIndex rxBuf offset str = some i) :
    offset ≤ i ∧ i + str.length < rxBuf.length := by
  unfold vFindIndex at h
  split at h
  · cases h
  · have hmem := List.mem_range'_1.mp (List.mem_of_find?_eq_some h)
    omega

theorem room_iff {a b n : Nat} (hab : a ≤ b) (hb : b ≤ n) (hn : n < 2 ^ 31) :
    (BitVec.ofNat 32 a).toNat + (BitVec.ofNat 32 b - BitVec.ofNat 32 a - 1).toNat ≤ n ↔ a ≠ b := by
  have ha : (BitVec.ofNat 32 a).toNat = a := by
    rw [toNat_ofNat]
    omega
  have hb' : (BitVec.ofNat 32 b).toNat = b := by
    rw [toNat_ofNat]
    omega
  rw [toNat_sub, toNat_sub, show (1 : U32).toNat = 1 from rfl]
  omega

variable {method : ReqMethod} {off len : U32} {app : AppFifo} {hc read : Conn}

theorem region_iff (hlt : rxBuf.length < 2 ^ 31) (h : parseRequest rxBuf = .ok (method, off, len)) :
    off.toNat + len.toNat ≤ rxBuf.length ↔ MarksApart rxBuf := by
  unfold parseRequest at h
  unfold MarksApart
  split at h
  · cases h
  cases hget : vFindIndex rxBuf 0 getMark with
  | some i =>
    simp only [hget] at h ⊢
    cases hhttp : vFindIndex rxBuf (i + 5) httpMark with
    | none =>
      rw [hhttp] at h
      cases h
    | some j =>
      rw [hhttp] at h
      obtain ⟨rfl, rfl, rfl⟩ := h
      obtain ⟨hij, hj⟩ := vFindIndex_bounds hhttp
      rw [room_iff hij (by omega) hlt, ne_eq, ne_eq, Option.some.injEq, eq_comm]
  | none =>
    simp only [hget] at h ⊢
    cases hpost : vFindIndex rxBuf 0 postMark with
    | none =>
      rw [hpost] at h
      cases h
    | some i =>
      rw [hpost] at h
      obtain ⟨rfl, rfl, rfl⟩ := h
      obtain ⟨-, hi⟩ := vFindIndex_bounds hpost
      have hi : i + 5 < rxBuf.length := hi
      rw [room_iff (by omega) (Nat.le_refl _) hlt]
      omega

theorem apart_of_error {ec : StatusCode} (h : parseRequest rxBuf = .error ec)
    (hlen : 8 ≤ rxBuf.length) : MarksApart rxBuf := by
  unfold parseRequest at h
  unfold MarksApart
  rw [if_neg (Nat.not_lt.mpr hlen)] at h
  cases hget : vFindIndex rxBuf 0 getMark with
  | some i =>
    simp only [hget] at h ⊢
    cases hhttp : vFindIndex rxBuf (i + 5) httpMark with
    | none => exact (Option.some_ne_none _).symm
    | some j =>
      rw [hhttp] at h
      cases h
  | none =>
    simp only [hget] at h ⊢
    cases hpost : vFindIndex rxBuf 0 postMark with
    | none => trivial
    | some i =>
      rw [hpost] at h
      cases h

theorem length_of_ok {q : ReqMethod × U32 × U32} (h : parseRequest rxBuf = .ok q) :
    8 ≤ rxBuf.length := by
  unfold parseRequest at h
  split at h
  · cases h
  · omega

theorem enqueued_eq (hlen : len.toNat < 2 ^ 31) (h : 0 ≤ app.svmFifoEnqueueSegments len) :
    app.svmFifoEnqueueSegments len = sizeofMsg + len.toNat := by
  unfold AppFifo.svmFifoEnqueueSegments at h ⊢
  simp only at h ⊢
  split at h
  · exact absurd h (by decide)
  rename_i hspace
  rw [if_neg hspace]
  split at h
  · exact absurd h (by decide)
  rename_i hfit
  rw [if_neg hfit]
  split at h
  · exact absurd h (by decide)
  rename_i hgrow
  rw [if_neg hgrow]
  have htotal : (BitVec.ofNat 32 sizeofMsg + len).toNat = sizeofMsg + len.toNat := by
    rw [toNat_add, show (BitVec.ofNat 32 sizeofMsg).toNat = sizeofMsg from rfl]
    unfold sizeofMsg
    omega
  rw [toInt_eq_toNat_cond, htotal] at h ⊢
  split at h
  · rename_i hsmall
    rw [if_pos hsmall]
    rfl
  · omega

def Conn.Apart (hc : Conn) : Prop :=
  ∀ read, hc.readHttpMessage = some read → 8 ≤ read.rxBuf.length → MarksApart read.rxBuf

theorem readHttpMessage_rxBuf (h : hc.readHttpMessage = some read) :
    read.rxBuf = hc.rxBuf ++ hc.tsRxFifo := by
  unfold Conn.readHttpMessage at h
  split at h
  · cases h
  split at h
  · rw [← Option.some.inj h]
  · cases h

theorem inside_iff (hlt : rxBuf.length < 2 ^ 31) :
    Request.Inside ⟨Conn.requestMsg method len, off, len, app.svmFifoEnqueueSegments len⟩ rxBuf ↔
      off.toNat + len.toNat ≤ rxBuf.length := by
  refine ⟨Request.Inside.region, fun hregion => ?_⟩
  have hdata : (Conn.requestMsg method len).dataLen.toNat = len.toNat := by
    rw [Conn.requestMsg, toNat_setWidth]
    omega
  refine ⟨hregion, hdata, fun hrv => ?_⟩
  exact enqueued_eq (by omega) hrv

theorem stateSrvWaitMethod_request (hread : hc.readHttpMessage = some read)
    (hparse : parseRequest read.rxBuf = .ok (method, off, len)) :
    (hc.stateSrvWaitMethod app).2.request =
      some ⟨Conn.requestMsg method len, off, len, app.svmFifoEnqueueSegments len⟩ := by
  unfold Conn.stateSrvWaitMethod
  simp only [hread, hparse]
  split <;> rfl

theorem request_inside_iff (hc : Conn) (app : AppFifo) :
    (∀ r, (hc.stateSrvWaitMethod app).2.request = some r → r.Inside (hc.rxBuf ++ hc.tsRxFifo)) ↔
      hc.Apart := by
  unfold Conn.Apart
  cases hread : hc.readHttpMessage with
  | none => simp [Conn.stateSrvWaitMethod, hread]
  | some read =>
    rw [← readHttpMessage_rxBuf hread]
    simp only [Option.some.injEq, forall_eq']
    cases hparse : parseRequest read.rxBuf with
    | error ec =>
      simp only [Conn.stateSrvWaitMethod, hread, hparse]
      exact iff_of_true (fun r h => nomatch h) (apart_of_error hparse)
    | ok q =>
      rw [stateSrvWaitMethod_request hread hparse]
      simp only [Option.some.injEq, forall_eq']
      rw [inside_iff read.rxBuf_lt, region_iff read.rxBuf_lt hparse]
      simp only [length_of_ok hparse, forall_const]

/-! ## Runs -/

/-- What happens to a connection: bytes arrive, the transport reports them, the application has its turn and
leaves some state. -/
inductive Event
  | arrive (data : List Byte)
  | rx (app : AppFifo)
  | appTurn (st : HttpState)

/-- The request that is handed over, if any, with the buffer it was handed over from. -/
def Conn.step (hc : Conn) : Event → Conn × Option (Request × List Byte)
  | .arrive data => ({ hc with tsRxFifo := hc.tsRxFifo ++ data }, none)
  | .rx app =>
    -- `http_ts_server_rx_callback`
    if hc.httpState ≠ .waitMethod then (hc, none)
    else
      let r := hc.stateSrvWaitMethod app
      (r.1, r.2.request.map fun q => (q, hc.rxBuf ++ hc.tsRxFifo))
  | .appTurn st => ({ hc with httpState := st }, none)

def Event.Apart (hc : Conn) : Event → Prop
  | .rx _ => hc.Apart
  | _ => True

/-- **Requests stay inside what was received.** A call hands over a request inside the buffer exactly if it
finds its marks apart; if all calls of a run do, all requests are inside. -/
theorem requests_inside (hc : Conn) :
    (∀ app, (∀ r, (hc.stateSrvWaitMethod app).2.request = some r →
      r.Inside (hc.rxBuf ++ hc.tsRxFifo)) ↔ hc.Apart) ∧
    ∀ es, Along Conn.step Event.Apart hc es →
      ∀ r buf, some (r, buf) ∈ outputs Conn.step hc es → r.Inside buf := by
  refine ⟨request_inside_iff hc, fun es hes r buf hmem => ?_⟩
  have hall := (hes.invariant (fun _ => True) (fun out => ∀ q ∈ out, q.1.Inside q.2) ?_ trivial).2
  · exact hall _ hmem (r, buf) rfl
  intro hc e _ he
  refine ⟨trivial, ?_⟩
  cases e with
  | arrive data => exact fun q hq => nomatch hq
  | appTurn st => exact fun q hq => nomatch hq
  | rx app =>
    intro q hq
    unfold Conn.step at hq
    simp only at hq
    split at hq
    · cases hq
    · obtain ⟨r, hr, rfl⟩ := Option.map_eq_some_iff.mp hq
      exact (request_inside_iff hc app).mpr he r hr

def accepted : Conn := ⟨.waitMethod, .get, [], 0, [], by decide⟩

/-- `"GET / HTTP/"` -/
def rootRequest : List Byte := [0x47, 0x45, 0x54, 0x20, 0x2f, 0x20, 0x48, 0x54, 0x54, 0x50, 0x2f]

theorem root_request_inside :
    (outputs Conn.step accepted [.arrive (rootRequest.take 3), .arrive (rootRequest.drop 3),
      .rx ⟨100, true⟩]).map (Option.map fun q => (q.1.offset, q.1.len)) = [none, none, some (5, 0)] ∧
    ∀ r buf, some (r, buf) ∈ outputs Conn.step accepted
      [.arrive (rootRequest.take 3), .arrive (rootRequest.drop 3), .rx ⟨100, true⟩] → r.Inside buf := by
  refine ⟨by decide +kernel, (requests_inside accepted).2 _ ⟨trivial, trivial, ?_, trivial⟩⟩
  intro read hread _
  rw [readHttpMessage_rxBuf hread]
  have hget : vFindIndex rootRequest 0 getMark = some 0 := by decide +kernel
  have hhttp : vFindIndex rootRequest (0 + 5) httpMark = some 6 := by decide +kernel
  show MarksApart rootRequest
  unfold MarksApart
  simp only [hget]
  decide

/-- `"GET /HTTP/"` -/
def adjacentMarks : List Byte := [0x47, 0x45, 0x54, 0x20, 0x2f, 0x48, 0x54, 0x54, 0x50, 0x2f]

/-- `"AAPOST /"` -/
def emptyPost : List Byte := [0x41, 0x41, 0x50, 0x4f, 0x53, 0x54, 0x20, 0x2f]

/-- Both requests are handed over with a length of `2 ^ 32 - 1`; the fifo accepts 31 bytes. -/
theorem length_wraps :
    (outputs Conn.step accepted [.arrive adjacentMarks, .rx ⟨100, true⟩]).map
      (Option.map fun q => (q.1.offset, q.1.len, q.1.rv)) = [none, some (5, 0xffffffff, 31)] ∧
    (outputs Conn.step accepted [.arrive emptyPost, .rx ⟨100, true⟩]).map
      (Option.map fun q => (q.1.offset, q.1.len, q.1.rv)) = [none, some (8, 0xffffffff, 31)] := by
  decide +kernel

end Vpp.Http
