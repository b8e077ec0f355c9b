import Freecoin.Network.Getdata
import Freecoin.Network.Inventory

/-!
# network.c: `handle_connection`

The receive loop and its branches. Whatever one `recvfrom` delivers is taken
for one message: nothing is kept for the next one, and the number of bytes
received is not looked at again. The `fatal` that stands behind
`if (resp == NULL);` is left out of the loop, since with it no message is ever received;
`RespCheck` has both readings.
-/

namespace Freecoin

open Lib

/-- `Peer`, as far as it is sent to others. -/
structure Peer : Type where
  port : UInt32
  addrLen : UInt32
  addr : Mem

/-- What a connection sees of the rest of the process: the peers of the network, and
whether Berkeley DB opens a cursor that is asked for with `DB_LAST` as flags. -/
structure Net : Type where
  peers : List Peer
  lastOpens : Bool

/-- What the handling of a message works on. -/
structure Conn : Type where
  dbs : Dbs
  resp : Mem

/-- The memory that the handling of one message is handed uninitialised; see
`buildMempoolList` for `ret` and `blockComputeSize` for `addr`. -/
structure MsgMem : Type where
  build : BuildMem
  block : BlockMem
  ret : UInt8
  addr : UInt8
  dest : Mem
  entry : EntryMem

/-! ## The branches -/

variable {B : Bdb} (env : Env B) (net : Net)

/-- One pass of the loop over the peers. -/
def answerNode (resp : Mem) (peer : Peer) : Except Fault (Mem × List Sent) :=
  let len := peer.addrLen.toNat
  let resp := resp.write ctypePeerPosPort (ustob peer.port.toUInt16)
  let resp := resp.write ctypePeerPosAddrLen (ustob peer.addrLen.toUInt16)
  let resp := resp.write ctypePeerPosAddr (peer.addr.slice 0 len)
  .ok (resp, [.toPeer ctypePeer (resp.slice 0 (4 + len))])

/-- The `CTYPE_GETDATA` branch: the response buffer and what was sent. -/
def handleGetdata (addr : UInt8) (dbs : Dbs) (resp msg : Mem) : Except Fault (Mem × List Sent) :=
  let dtype := msg ctypeGetdataPosDatatype
  if dtype = dtypeBlock then
    collectState (answerBlock env addr dbs msg) (idOffsets (idsCount msg * 32).toNat) resp
  else if dtype = dtypeTx then
    collectState (answerTx dbs.mempool msg) (idOffsets (idsCount msg).toNat) resp
  else if dtype = dtypeNode then
    -- `uchar count = peers_count`
    collectState answerNode (net.peers.take (UInt8.ofNat net.peers.length).toNat) resp
  else .ok (resp, [])

/-- The response buffer after the `CTYPE_BLOCK` branch. -/
def blockResp (u : BlockMem) (dbs : Dbs) (block resp : Mem) : Mem :=
  if offTip (blockGetHeight env.host block) (dataChainGetHeight env u.height dbs) then
    ((resp.write ctypeInvPosIds (blockComputeHash env.digest block)).write
      ctypeGetdataPosDatatype [dtypeBlock]).write ctypeGetdataPosIdsCount [1]
  else resp

/-- What is done with a message of the right version. -/
def handleMessage (u : MsgMem) (fuel : ℕ) (s : Conn) (msg : Mem) :
    Except Fault (Conn × List Sent) :=
  let ctype := msgCtype msg
  if ctype = ctypeReject then .ok (s, [])
  else if ctype = ctypeGetblocks then
    let out := handleGetblocks env u.build s.dbs s.resp msg
    .ok ({ s with resp := out.1 }, out.2)
  else if ctype = ctypeMempool then do
    let out ← handleMempool u.ret s.dbs s.resp
    return ({ s with resp := out.1 }, out.2)
  else if ctype = ctypeInv then
    let out := handleInv B s.dbs s.resp msg
    .ok ({ s with resp := out.1 }, out.2)
  else if ctype = ctypeGetdata then do
    let out ← handleGetdata env net u.addr s.dbs s.resp msg
    return ({ s with resp := out.1 }, out.2)
  else if ctype = ctypeBlock then
    if net.lastOpens then do
      let out ← handleBlock env u.block fuel s.dbs msg
      return (⟨out.1, blockResp env u.block s.dbs (msg.shift ctypeBlockPosBlock) s.resp⟩, out.2)
    else .error (.fatal "failed to init cursor in limbo_scan")
  else if ctype = ctypeTx then do
    let dbs ← handleTx env u.dest u.entry s.dbs msg
    return ({ s with dbs := dbs }, [])
  else if ctype = ctypePeer then .error (.fatal "recieved peer msg")
  else if ctype = ctypeAlert then .error (.fatal "recieved alert msg")
  else if ctype = ctypePing then .ok (s, [.toPeer ctypePong []])
  else .ok (s, [])

theorem handleMessage_block {net : Net} {u : MsgMem} {fuel : ℕ} {s : Conn} {msg : Mem}
    (h : msgCtype msg = ctypeBlock) :
    handleMessage env net u fuel s msg =
      if net.lastOpens then do
        let out ← handleBlock env u.block fuel s.dbs msg
        return (⟨out.1, blockResp env u.block s.dbs (msg.shift ctypeBlockPosBlock) s.resp⟩, out.2)
      else .error (.fatal "failed to init cursor in limbo_scan") := by
  rw [handleMessage, h]
  rfl

theorem handleMessage_tx {net : Net} {u : MsgMem} {fuel : ℕ} {s : Conn} {msg : Mem}
    (h : msgCtype msg = ctypeTx) :
    handleMessage env net u fuel s msg = do
      let dbs ← handleTx env u.dest u.entry s.dbs msg
      return ({ s with dbs := dbs }, []) := by
  rw [handleMessage, h]
  rfl

/-! ## The receive loop -/

/-- The lines 78 and 79 of `network.c`: `if (resp == NULL);` and under it the `fatal`. -/
inductive RespCheck : Type where
  /-- The `;` ends the test, so that the `fatal` is reached whatever `resp` is. -/
  | written
  /-- As in the lines for `msg` above: the `fatal` is for a buffer that was not allocated. -/
  | meant
deriving DecidableEq

/-- `handle_connection` up to its loop, when both buffers have been allocated. -/
def startConnection : RespCheck → Except Fault Unit
  | .written => .error (.fatal "Failed to allocate response buffer")
  | .meant => .ok ()

/-- What can be seen of the handling of one `recvfrom`. -/
inductive Event : Type where
  /-- A wrong version is answered, and the connection closed. -/
  | rejected (reply : Sent)
  /-- The content type, the bytes received, the databases and what was sent. -/
  | handled (ctype : UInt8) (received : Bytes) (dbs : Dbs) (sent : List Sent)
  /-- The process stopped, or did not get to the end of the handling. -/
  | died (received : Bytes) (fault : Fault)

/-- The bytes of a message that was not rejected. -/
def Event.received : Event → Option Bytes
  | .rejected _ => none
  | .handled _ bytes _ _ => some bytes
  | .died bytes _ => some bytes

/-- The reply to a wrong version. -/
def rejectReply (resp : Mem) : Sent :=
  let resp := resp.write ctypeRejectPosErrortype [errBadVersion]
  let resp := resp.write ctypeRejectPosInfoSize (List.replicate 4 0)
  .toPeer ctypeReject (resp.slice 0 5)

/-- `handle_connection` when the socket delivers the given chunks and then the end of
the stream, as an empty one is too (`n == 0`); `stale` is what the receive buffer holds,
and `k` counts the messages. -/
def handleConnection (u : ℕ → MsgMem) (fuel : ℕ) : List Bytes → ℕ → Mem → Conn → List Event
  | [], _, _, _ => []
  | chunk :: rest, k, stale, s =>
      let msg := recvMsg stale chunk
      if chunk = [] then []
      else if msgVersion env.host msg = clientVersion then
        match handleMessage env net (u k) fuel s msg with
        | .error e => [.died chunk e]
        | .ok (s', sent) => .handled (msgCtype msg) chunk s'.dbs sent ::
            handleConnection u fuel rest (k + 1) msg s'
      else [.rejected (rejectReply s.resp)]

/-! ## Cutting the stream -/

/-- A message given to `sendto_peer`; `raw` is what `malloc` returned there. -/
structure OutMsg : Type where
  raw : Mem
  ctype : UInt8
  payload : Bytes

/-- What goes over the wire for a sequence of messages. -/
def framedStream (msgs : List OutMsg) : Bytes :=
  msgs.flatMap fun m => sendtoPeer m.raw m.ctype m.payload

/-- A way in which the socket may deliver a stream. -/
structure Cut (stream : Bytes) (chunks : List Bytes) : Prop where
  flatten : chunks.flatten = stream
  nonempty : ∀ c ∈ chunks, c ≠ []
  fits : ∀ c ∈ chunks, c.length ≤ maxMsgSize

/-- However the stream is cut, the same messages are handled in the same way. -/
def SegmentationIndependent (u : ℕ → MsgMem) (fuel : ℕ) (stale : Mem) (s : Conn)
    (stream : Bytes) : Prop :=
  ∀ chunks chunks', Cut stream chunks → Cut stream chunks' →
    handleConnection env net u fuel chunks 0 stale s =
      handleConnection env net u fuel chunks' 0 stale s

theorem rightVersion_iff (o : ByteOrder) {msg : Mem} (h : msg 0 = 0) :
    msgVersion o msg = clientVersion ↔ msg 1 = 1 := by
  rw [msgVersion_eq, h]
  constructor
  · exact word16_eq_one
  · intro h1
    rw [h1]
    decide

/-- Every frame starts with a zero byte. -/
theorem framedStream_cons (m : OutMsg) (rest : List OutMsg) :
    framedStream (m :: rest) = 0 :: (m.payload ++ framedStream rest) := by
  rw [framedStream, List.flatMap_cons, sendtoPeer_eq]
  rfl

section Cuts

variable {env net} {u : ℕ → MsgMem} {fuel k : ℕ} {stale : Mem} {s : Conn}

/-- What the first event shows of the first chunk. -/
theorem handleConnection_first {chunk : Bytes} (hchunk : chunk ≠ []) (rest : List Bytes) :
    (handleConnection env net u fuel (chunk :: rest) k stale s).head?.map Event.received =
      some (if msgVersion env.host (recvMsg stale chunk) = clientVersion then some chunk
        else none) := by
  rw [handleConnection, if_neg hchunk]
  split
  · cases handleMessage env net (u k) fuel s (recvMsg stale chunk) <;> rfl
  · rfl

/-- A chunk of the wrong version is the last one. -/
theorem handleConnection_rejected {chunk : Bytes} (hchunk : chunk ≠ [])
    (h : msgVersion env.host (recvMsg stale chunk) ≠ clientVersion) (rest : List Bytes) :
    handleConnection env net u fuel (chunk :: rest) k stale s =
      [.rejected (rejectReply s.resp)] := by
  rw [handleConnection, if_neg hchunk]
  exact if_neg h

theorem cut_nil {chunks : List Bytes} (h : Cut [] chunks) : chunks = [] := by
  cases chunks with
  | nil => rfl
  | cons c rest =>
      have hc := List.append_eq_nil_iff.mp h.flatten
      exact absurd hc.1 (h.nonempty c (List.mem_cons_self ..))

/-- Byte by byte. -/
theorem cut_singletons (stream : Bytes) : Cut stream (stream.map fun b => [b]) := by
  refine ⟨?_, ?_, ?_⟩
  · induction stream with
    | nil => rfl
    | cons b rest ih => exact congrArg (b :: ·) ih
  · intro c hc
    obtain ⟨b, -, rfl⟩ := List.mem_map.mp hc
    exact List.cons_ne_nil _ _
  · intro c hc
    obtain ⟨b, -, rfl⟩ := List.mem_map.mp hc
    simp

/-- The first two bytes together, the others one by one. -/
theorem cut_two (a b : UInt8) (rest : Bytes) :
    Cut (a :: b :: rest) ([a, b] :: rest.map fun b => [b]) := by
  have hrest := cut_singletons rest
  refine ⟨congrArg (fun l => a :: b :: l) hrest.flatten, ?_, ?_⟩
  · exact List.forall_mem_cons.mpr ⟨List.cons_ne_nil _ _, hrest.nonempty⟩
  · exact List.forall_mem_cons.mpr ⟨by simp, hrest.fits⟩

/-- The first chunk of a stream that starts with a zero byte. -/
theorem Cut.first {stream : Bytes} {chunks : List Bytes} (h : Cut (0 :: stream) chunks) :
    ∃ tail rest, chunks = (0 :: tail) :: rest ∧ tail ++ rest.flatten = stream ∧
      Cut rest.flatten rest := by
  cases chunks with
  | nil => exact absurd h.flatten (by simp)
  | cons c rest =>
      cases c with
      | nil => exact absurd rfl (h.nonempty [] (List.mem_cons_self ..))
      | cons b tail =>
          have hflat := h.flatten
          rw [List.flatten_cons, List.cons_append, List.cons.injEq] at hflat
          obtain ⟨rfl, hflat⟩ := hflat
          exact ⟨tail, rest, rfl, hflat, rfl, fun c hc => h.nonempty c (List.mem_cons_of_mem _ hc),
            fun c hc => h.fits c (List.mem_cons_of_mem _ hc)⟩

/-- The version in a chunk that starts with a zero byte is the second byte, or what the
buffer held there. -/
theorem recvMsg_version (stale : Mem) (tail : Bytes) :
    msgVersion env.host (recvMsg stale (0 :: tail)) = clientVersion ↔
      tail.head?.getD (stale 1) = 1 := by
  have hzero : recvMsg stale (0 :: tail) 0 = 0 := recvMsg_zero rfl
  rw [rightVersion_iff env.host hzero]
  cases tail with
  | nil => rfl
  | cons b tail => rfl

/-- A stream with a second byte can be cut before it and after it. -/
theorem segmentationIndependent_zero (stream : Bytes) :
    SegmentationIndependent env net u fuel stale s (0 :: stream) ↔
      stream = [] ∨ (stale 1 ≠ 1 ∧ stream.head? ≠ some 1) := by
  constructor
  · intro h
    cases stream with
    | nil => exact .inl rfl
    | cons b rest =>
        refine .inr ?_
        have hsame := congrArg (fun events => events.head?.map Event.received)
          (h _ _ (cut_two 0 b rest) (cut_singletons (0 :: b :: rest)))
        rw [List.map_cons] at hsame
        rw [handleConnection_first (List.cons_ne_nil _ _),
          handleConnection_first (List.cons_ne_nil _ _), Option.some_inj] at hsame
        have htwo : msgVersion env.host (recvMsg stale [0, b]) = clientVersion ↔ b = 1 :=
          recvMsg_version stale [b]
        have hone : msgVersion env.host (recvMsg stale [0]) = clientVersion ↔ stale 1 = 1 :=
          recvMsg_version stale []
        simp only [htwo, hone] at hsame
        by_cases hb : b = 1 <;> by_cases hst : stale 1 = 1 <;> simp_all
  · rintro (rfl | ⟨hstale, hhead⟩) chunks chunks' hcut hcut'
    · have hone : ∀ chunks, Cut [0] chunks → chunks = [[0]] := by
        intro chunks hcut
        obtain ⟨tail, rest, rfl, hflat, hrest⟩ := hcut.first
        obtain ⟨rfl, hnil⟩ := List.append_eq_nil_iff.mp hflat
        rw [hnil] at hrest
        rw [cut_nil hrest]
      rw [hone _ hcut, hone _ hcut']
    · have hreject : ∀ chunks, Cut (0 :: stream) chunks →
          handleConnection env net u fuel chunks 0 stale s =
            [.rejected (rejectReply s.resp)] := by
        intro chunks hcut
        obtain ⟨tail, rest, rfl, hflat, -⟩ := hcut.first
        refine handleConnection_rejected (List.cons_ne_nil _ _) ?_ rest
        rw [Ne, recvMsg_version]
        cases tail with
        | nil => exact hstale
        | cons b tail =>
            rw [← hflat] at hhead
            exact fun hb => hhead (congrArg some hb)
      rw [hreject _ hcut, hreject _ hcut']

end Cuts

/-- **Segmentation.** A stream is handled in the same way however it is cut if and
only if it has at most one byte, or every cut is rejected at once: the first
payload does not start with the low byte of the version, and neither does the
fresh buffer hold it in that place. -/
theorem segmentationIndependent_iff (env : Env B) (net : Net) (u : ℕ → MsgMem) (fuel : ℕ)
    (stale : Mem) (s : Conn) (msgs : List OutMsg) :
    SegmentationIndependent env net u fuel stale s (framedStream msgs) ↔
      msgs = [] ∨ (∃ m, msgs = [m] ∧ m.payload = []) ∨
        (stale 1 ≠ 1 ∧ ∀ m rest, msgs = m :: rest → m.payload.head? ≠ some 1) := by
  cases msgs with
  | nil =>
      refine iff_of_true ?_ (.inl rfl)
      intro chunks chunks' h h'
      rw [cut_nil h, cut_nil h']
  | cons m rest =>
      have hnext : (framedStream rest).head? ≠ some 1 := by
        cases rest with
        | nil => simp [framedStream]
        | cons m' rest => simp [framedStream_cons]
      have hhead : (m.payload ++ framedStream rest).head? ≠ some 1 ↔ m.payload.head? ≠ some 1 := by
        cases m.payload with
        | nil => exact iff_of_true hnext (by simp)
        | cons b p => exact Iff.rfl
      have hnil : m.payload ++ framedStream rest = [] ↔ rest = [] ∧ m.payload = [] := by
        rw [List.append_eq_nil_iff, and_comm]
        refine and_congr_left fun _ => ?_
        cases rest with
        | nil => exact iff_of_true rfl rfl
        | cons m' rest => rw [framedStream_cons]; simp
      rw [framedStream_cons, segmentationIndependent_zero, hhead, hnil]
      simp

/-- Memory that happens to be zero. -/
def MsgMem.zero : MsgMem where
  build := ⟨⟨0, fun _ => 0⟩, fun _ => 0, fun _ => 0⟩
  block := .zero
  ret := 0
  addr := 0
  dest := fun _ => 0
  entry := ⟨fun _ => 0, []⟩

/-- A ping that carries version and content type as payload is answered if it comes in
one piece, and rejected if its first byte comes alone. -/
theorem ping_cut_in_two :
    ¬ SegmentationIndependent sampleEnv ⟨[], true⟩ (fun _ => .zero) 0 (fun _ => 0)
      ⟨emptyNode, fun _ => 0⟩ (framedStream [⟨fun _ => 0, ctypePing, [1, ctypePing]⟩]) := by
  intro h
  have hcut : Cut (framedStream [⟨fun _ => 0, ctypePing, [1, ctypePing]⟩]) [[0, 1, 9]] :=
    ⟨rfl, by decide, by decide⟩
  have hcut' : Cut (framedStream [⟨fun _ => 0, ctypePing, [1, ctypePing]⟩]) [[0], [1, 9]] :=
    ⟨rfl, by decide, by decide⟩
  have hsame := congrArg (fun events => events.head?.map Event.received) (h _ _ hcut hcut')
  rw [handleConnection_first (List.cons_ne_nil _ _),
    handleConnection_first (List.cons_ne_nil _ _)] at hsame
  exact absurd hsame (by decide)

end Freecoin
