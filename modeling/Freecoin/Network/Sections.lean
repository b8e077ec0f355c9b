import Freecoin.Lib.CriticalSection
import Freecoin.Network.Connection
import Freecoin.Network.Exchange

/-!
# network.c: the branches that take the mempool mutex

`<tx>`, `<mempool>` and a `<getdata>` of transactions are handled between a lock and an
unlock of `mempool->mutex`. Here the threads that do so are followed a read or a write
of the mempool at a time: the count and the slots are read where the source reads them,
and `data_mempool_add` first fills the slot and then counts it. In between, other threads
may take steps of their own.

No step of one thread is seen by another: the messages are handled as if one at a time,
which is how the rest of this development handles them. That is so among these three
branches. The reorganisation of a `<block>` and the miner go to the mempool without the
mutex.
-/

namespace Freecoin

open Lib

/-! ## The branches, a step at a time -/

/-- The branch takes the mempool mutex. -/
def TakesMutex (msg : Mem) : Prop :=
  msgCtype msg = ctypeTx ∨ msgCtype msg = ctypeMempool ∨
    (msgCtype msg = ctypeGetdata ∧ msg ctypeGetdataPosDatatype = dtypeTx)

/-- A message for one of the three branches, with the memory its handling is handed
uninitialised and the response buffer of its connection. -/
structure MempoolMsg : Type where
  mem : MsgMem
  msg : Mem
  resp : Mem
  takes : TakesMutex msg

/-- How far the loop of a `<getdata>` has come: the response buffer, the offsets of the
ids to come, and what was sent. -/
structure Answering : Type where
  resp : Mem
  offsets : List ℕ
  sent : List Sent

/-- Where a thread is between lock and unlock. -/
inductive MempoolPc : Type where
  /-- The `CTYPE_TX` branch: the test of the count, and `m_tx_gen`. -/
  | test
  | build
  /-- `data_mempool_add(tx)`: `data_mempool_exists` reads the count and compares the hashes,
  `n` more of them from slot `i` on. -/
  | add (tx : Mem)
  | compare (tx : Mem) (n i : ℕ)
  | store (tx : Mem)
  | count
  /-- The `CTYPE_GETDATA` branch: the next id, which is compared in the same way, and
  `data_mempool_get`. -/
  | next (a : Answering)
  | find (a : Answering) (offset n i : ℕ)
  | get (a : Answering) (offset : ℕ)
  | send (a : Answering) (tx : MTx)
  /-- `build_mempool_list`: the count, and `n` more entries from slot `i` on. -/
  | max
  | copy (dest : Mem) (n i : ℕ)

/-- The response buffer and what was sent. -/
abbrev Reply : Type := Mem × List Sent

variable {B : Bdb} (env : Env B)

/-- A slot is filled. -/
def storeEntry (u : EntryMem) (dbs : Dbs) (tx : Mem) : Dbs :=
  let p := dbs.mempool
  let entry := mempoolEntry env.host env.digest u tx
  { dbs with mempool := { p with txs := Function.update p.txs p.count (some entry) } }

/-- It is counted. -/
def countEntry (dbs : Dbs) : Dbs :=
  { dbs with mempool := { dbs.mempool with count := dbs.mempool.count + 1 } }

/-- What is sent for an entry. -/
def sendTx (a : Answering) (tx : MTx) : Answering :=
  let resp := (a.resp.write ctypeTxPosTx tx.bytes).write ctypeTxPosSize
    (uitob (UInt32.ofNat tx.size))
  { a with resp := resp, sent := a.sent ++ [.toPeer ctypeTx (resp.slice 0 (4 + tx.size))] }

/-- One step of the thread that handles `m`. -/
def mempoolStep (m : MempoolMsg) (dbs : Dbs) : MempoolPc → Except Fault (Dbs × (MempoolPc ⊕ Reply))
  | .test =>
      if dbs.mempool.count < env.maxMempoolSize then .ok (dbs, .inl .build)
      else .ok (dbs, .inr (m.resp, []))
  | .build => do
      let tx ← rebuiltTx env m.mem.dest m.msg
      return (dbs, .inl (.add tx.1))
  | .add tx => .ok (dbs, .inl (.compare tx dbs.mempool.count 0))
  | .compare tx 0 _ => .ok (dbs, .inl (.store tx))
  | .compare tx (n + 1) i =>
      match dbs.mempool.txs i with
      | none => .error .badPointer
      | some e =>
          if e.hash = txComputeHash env.host env.digest tx then .ok (dbs, .inr (m.resp, []))
          else .ok (dbs, .inl (.compare tx n (i + 1)))
  | .store tx => .ok (storeEntry env m.mem.entry dbs tx, .inl .count)
  | .count => .ok (countEntry dbs, .inr (m.resp, []))
  | .next ⟨resp, [], sent⟩ => .ok (dbs, .inr (resp, sent))
  | .next ⟨resp, offset :: rest, sent⟩ =>
      .ok (dbs, .inl (.find ⟨resp, rest, sent⟩ offset dbs.mempool.count 0))
  | .find a _ 0 _ => .ok (dbs, .inl (.next a))
  | .find a offset (n + 1) i =>
      match dbs.mempool.txs i with
      | none => .error .badPointer
      | some e =>
          if e.hash = idAt m.msg offset then .ok (dbs, .inl (.get a offset))
          else .ok (dbs, .inl (.find a offset n (i + 1)))
  | .get a offset =>
      match dataMempoolGet dbs.mempool offset with
      | none => .error .badPointer
      | some tx => .ok (dbs, .inl (.send a tx))
  | .send a tx => .ok (dbs, .inl (.next (sendTx a tx)))
  | .max => .ok (dbs, .inl (.copy (m.resp.shift ctypeInvPosIds) dbs.mempool.count 0))
  | .copy dest 0 _ => .ok (dbs, .inr (idsReply ctypeInv dtypeTx m.mem.ret dest m.resp))
  | .copy dest (n + 1) i => do
      let dest ← copyEntry dbs.mempool dest i
      return (dbs, .inl (.copy dest n (i + 1)))

/-- What a thread does between lock and unlock. -/
def mempoolSection (m : MempoolMsg) : Section Dbs MempoolPc Fault Reply where
  enter :=
    if msgCtype m.msg = ctypeTx then .test
    else if msgCtype m.msg = ctypeMempool then .max
    else .next ⟨m.resp, idOffsets (idsCount m.msg).toNat, []⟩
  step := mempoolStep env m

/-! ## What is left to do -/

/-- The comparisons still to be made, `n` of them from slot `i` on. -/
def searchRest (dbs : Dbs) (hash : Bytes) (n i : ℕ) : Except Fault Bool :=
  (mempoolFind MTx.hash dbs.mempool.txs hash n i).map Option.isSome

/-- `data_mempool_add` when it is known whether the transaction is there. -/
def addRest (m : MempoolMsg) (dbs : Dbs) (tx : Mem) (found : Bool) : Dbs × Reply :=
  if found then (dbs, m.resp, [])
  else (countEntry (storeEntry env m.mem.entry dbs tx), m.resp, [])

def compareRest (m : MempoolMsg) (dbs : Dbs) (tx : Mem) (n i : ℕ) : Except Fault (Dbs × Reply) :=
  (searchRest dbs (txComputeHash env.host env.digest tx) n i).map (addRest env m dbs tx)

/-- The rest of the loop of a `<getdata>`. -/
def idsRest (m : MempoolMsg) (dbs : Dbs) (a : Answering) : Except Fault (Dbs × Reply) :=
  (collectState (answerTx dbs.mempool m.msg) a.offsets a.resp).map fun out =>
    (dbs, out.1, a.sent ++ out.2)

/-- The same from `data_mempool_get` on. -/
def getRest (m : MempoolMsg) (dbs : Dbs) (a : Answering) (offset : ℕ) :
    Except Fault (Dbs × Reply) :=
  match dataMempoolGet dbs.mempool offset with
  | none => .error .badPointer
  | some tx => idsRest m dbs (sendTx a tx)

/-- The same when it is known whether the id is there. -/
def findRest (m : MempoolMsg) (dbs : Dbs) (a : Answering) (offset : ℕ) (found : Bool) :
    Except Fault (Dbs × Reply) :=
  if found then getRest m dbs a offset else idsRest m dbs a

/-- The rest of `build_mempool_list`. -/
def copyRest (m : MempoolMsg) (dbs : Dbs) (dest : Mem) (n i : ℕ) : Except Fault (Dbs × Reply) :=
  ((List.range' i n).foldlM (copyEntry dbs.mempool) dest).map fun dest =>
    (dbs, idsReply ctypeInv dtypeTx m.mem.ret dest m.resp)

/-- The rest of a branch at one go. -/
def mempoolRest (m : MempoolMsg) (dbs : Dbs) : MempoolPc ⊕ Reply → Except Fault (Dbs × Reply)
  | .inr reply => .ok (dbs, reply)
  | .inl .test => (handleTx env m.mem.dest m.mem.entry dbs m.msg).map fun dbs => (dbs, m.resp, [])
  | .inl .build => do
      let tx ← rebuiltTx env m.mem.dest m.msg
      compareRest env m dbs tx.1 dbs.mempool.count 0
  | .inl (.add tx) => compareRest env m dbs tx dbs.mempool.count 0
  | .inl (.compare tx n i) => compareRest env m dbs tx n i
  | .inl (.store tx) => .ok (addRest env m dbs tx false)
  | .inl .count => .ok (countEntry dbs, m.resp, [])
  | .inl (.next a) => idsRest m dbs a
  | .inl (.find a offset n i) => do
      let found ← searchRest dbs (idAt m.msg offset) n i
      findRest m dbs a offset found
  | .inl (.get a offset) => getRest m dbs a offset
  | .inl (.send a tx) => idsRest m dbs (sendTx a tx)
  | .inl .max => copyRest m dbs (m.resp.shift ctypeInvPosIds) dbs.mempool.count 0
  | .inl (.copy dest n i) => copyRest m dbs dest n i

variable {env}

theorem searchRest_succ {dbs : Dbs} {e : MTx} (hash : Bytes) (n : ℕ) {i : ℕ}
    (h : dbs.mempool.txs i = some e) :
    searchRest dbs hash (n + 1) i =
      if e.hash = hash then .ok true else searchRest dbs hash n (i + 1) := by
  rw [searchRest, mempoolFind, h]
  dsimp only
  split <;> rfl

/-- `data_mempool_add` is a search and, if it fails, a slot filled and counted. -/
theorem dataMempoolAdd_rest (m : MempoolMsg) (dbs : Dbs) (tx : Mem) :
    (dataMempoolAdd env.host env.digest m.mem.entry dbs.mempool tx).map
        (fun p => ({ dbs with mempool := p }, m.resp, [])) =
      (searchRest dbs (txComputeHash env.host env.digest tx) dbs.mempool.count 0).map
        (addRest env m dbs tx) := by
  have hexists : dataMempoolExists dbs.mempool (txComputeHash env.host env.digest tx) =
      searchRest dbs (txComputeHash env.host env.digest tx) dbs.mempool.count 0 := rfl
  rw [dataMempoolAdd, hexists]
  cases searchRest dbs (txComputeHash env.host env.digest tx) dbs.mempool.count 0 with
  | error e => rfl
  | ok found => cases found <;> rfl

/-- With room in the mempool, the `<tx>` branch is `m_tx_gen` and `data_mempool_add`. -/
theorem handleTx_rest (m : MempoolMsg) {dbs : Dbs}
    (hroom : dbs.mempool.count < env.maxMempoolSize) :
    (handleTx env m.mem.dest m.mem.entry dbs m.msg).map (fun dbs => (dbs, m.resp, [])) =
      mempoolRest env m dbs (.inl .build) := by
  rw [handleTx_room hroom]
  show _ = rebuiltTx env m.mem.dest m.msg >>= fun tx =>
    compareRest env m dbs tx.1 dbs.mempool.count 0
  cases rebuiltTx env m.mem.dest m.msg with
  | error e => rfl
  | ok tx =>
      have hadd := @dataMempoolAdd_rest _ env m dbs tx.1
      show Except.map _ (dataMempoolAdd env.host env.digest m.mem.entry dbs.mempool tx.1 >>= _) =
        compareRest env m dbs tx.1 dbs.mempool.count 0
      rw [compareRest, ← hadd]
      cases dataMempoolAdd env.host env.digest m.mem.entry dbs.mempool tx.1 <;> rfl

/-- A pass for one id, and the rest of the loop. -/
theorem idsRest_pass {m : MempoolMsg} {dbs : Dbs} {resp resp' : Mem} {offset : ℕ}
    {out : List Sent} (h : answerTx dbs.mempool m.msg resp offset = .ok (resp', out))
    (rest : List ℕ) (sent : List Sent) :
    idsRest m dbs ⟨resp, offset :: rest, sent⟩ = idsRest m dbs ⟨resp', rest, sent ++ out⟩ := by
  rw [idsRest, idsRest, collectState, h]
  show Except.map _ (collectState (answerTx dbs.mempool m.msg) rest resp' >>= _) = _
  cases collectState (answerTx dbs.mempool m.msg) rest resp' with
  | error e => rfl
  | ok later => exact congrArg (fun l => Except.ok (dbs, later.1, l)) (List.append_assoc ..).symm

/-- A pass is a search and, if it succeeds, an entry sent. -/
theorem idsRest_cons (m : MempoolMsg) (dbs : Dbs) (resp : Mem) (offset : ℕ) (rest : List ℕ)
    (sent : List Sent) :
    idsRest m dbs ⟨resp, offset :: rest, sent⟩ =
      searchRest dbs (idAt m.msg offset) dbs.mempool.count 0 >>=
        findRest m dbs ⟨resp, rest, sent⟩ offset := by
  have hexists : dataMempoolExists dbs.mempool (idAt m.msg offset) =
      searchRest dbs (idAt m.msg offset) dbs.mempool.count 0 := rfl
  cases hsearch : searchRest dbs (idAt m.msg offset) dbs.mempool.count 0 with
  | error e =>
      rw [idsRest, collectState, answerTx, hexists, hsearch]
      rfl
  | ok found =>
      cases found with
      | false =>
          rw [idsRest_pass (answerTx_absent _ _ (hexists.trans hsearch) resp), List.append_nil]
          rfl
      | true =>
          show _ = getRest m dbs ⟨resp, rest, sent⟩ offset
          rw [getRest]
          cases hget : dataMempoolGet dbs.mempool offset with
          | none =>
              rw [idsRest, collectState, answerTx, hexists, hsearch]
              show Except.map _ ((match dataMempoolGet dbs.mempool offset with
                | none => _
                | some tx => _) >>= _) = _
              rw [hget]
              rfl
          | some tx =>
              have hpass : answerTx dbs.mempool m.msg resp offset =
                  .ok ((sendTx ⟨resp, rest, sent⟩ tx).resp, [.toPeer ctypeTx
                    ((sendTx ⟨resp, rest, sent⟩ tx).resp.slice 0 (4 + tx.size))]) := by
                rw [answerTx, hexists, hsearch]
                show (match dataMempoolGet dbs.mempool offset with
                  | none => _
                  | some tx => _) = _
                rw [hget]
                rfl
              rw [idsRest_pass hpass]
              rfl

/-- **A step** takes off the branch what it does. -/
theorem mempoolSection_leaves (m : MempoolMsg) :
    (mempoolSection env m).Leaves (mempoolRest env m) := by
  refine ⟨fun _ _ => rfl, ?_⟩
  intro d d' k l hstep
  change mempoolStep env m d k = .ok (d', l) at hstep
  cases k with
  | test =>
      rw [mempoolStep] at hstep
      split at hstep
      · next hroom =>
          cases hstep
          exact (handleTx_rest m hroom).symm
      · next hfull =>
          cases hstep
          show _ = (handleTx env m.mem.dest m.mem.entry d m.msg).map _
          rw [handleTx, if_neg hfull]
          rfl
  | build =>
      obtain ⟨tx, hbuilt, hret⟩ := ok_of_bind hstep
      cases hret
      show _ = rebuiltTx env m.mem.dest m.msg >>= _
      rw [hbuilt]
      rfl
  | add tx =>
      cases hstep
      rfl
  | compare tx n i =>
      cases n with
      | zero =>
          cases hstep
          rfl
      | succ n =>
          rw [mempoolStep] at hstep
          show _ = compareRest env m d tx (n + 1) i
          split at hstep
          · cases hstep
          · next e he =>
              rw [compareRest, searchRest_succ _ n he]
              split at hstep
              · next hsame =>
                  cases hstep
                  rw [if_pos hsame]
                  rfl
              · next hdiff =>
                  cases hstep
                  rw [if_neg hdiff]
                  rfl
  | store tx =>
      cases hstep
      rfl
  | count =>
      cases hstep
      rfl
  | next a =>
      obtain ⟨resp, offsets, sent⟩ := a
      cases offsets with
      | nil =>
          cases hstep
          show _ = Except.ok (d, resp, sent ++ [])
          rw [List.append_nil]
          rfl
      | cons offset rest =>
          cases hstep
          exact (idsRest_cons ..).symm
  | find a offset n i =>
      cases n with
      | zero =>
          cases hstep
          rfl
      | succ n =>
          rw [mempoolStep] at hstep
          show _ = searchRest d (idAt m.msg offset) (n + 1) i >>= findRest m d a offset
          split at hstep
          · cases hstep
          · next e he =>
              rw [searchRest_succ _ n he]
              split at hstep
              · next hsame =>
                  cases hstep
                  rw [if_pos hsame]
                  rfl
              · next hdiff =>
                  cases hstep
                  rw [if_neg hdiff]
                  rfl
  | get a offset =>
      rw [mempoolStep] at hstep
      show _ = getRest m d a offset
      rw [getRest]
      split at hstep
      · cases hstep
      · next tx htx =>
          cases hstep
          rfl
  | send a tx =>
      cases hstep
      rfl
  | max =>
      cases hstep
      rfl
  | copy dest n i =>
      cases n with
      | zero =>
          cases hstep
          rfl
      | succ n =>
          obtain ⟨dest', hcopy, hret⟩ := ok_of_bind hstep
          cases hret
          show _ = copyRest m d dest (n + 1) i
          rw [copyRest, List.range'_succ, List.foldlM_cons, hcopy]
          rfl

/-! ## Messages one at a time -/

/-- Handling a message from its receipt to its end, with nothing in between. -/
def handleAtOnce (env : Env B) (net : Net) (fuel : ℕ) (m : MempoolMsg) (dbs : Dbs) :
    Except Fault (Dbs × Reply) :=
  (handleMessage env net m.mem fuel ⟨dbs, m.resp⟩ m.msg).map fun out =>
    (out.1.dbs, out.1.resp, out.2)

theorem handleMessage_mempool {net : Net} {u : MsgMem} {fuel : ℕ} {s : Conn} {msg : Mem}
    (h : msgCtype msg = ctypeMempool) :
    handleMessage env net u fuel s msg = do
      let out ← handleMempool u.ret s.dbs s.resp
      return ({ s with resp := out.1 }, out.2) := by
  rw [handleMessage, h]
  rfl

theorem handleMessage_getdata {net : Net} {u : MsgMem} {fuel : ℕ} {s : Conn} {msg : Mem}
    (h : msgCtype msg = ctypeGetdata) :
    handleMessage env net u fuel s msg = do
      let out ← handleGetdata env net u.addr s.dbs s.resp msg
      return ({ s with resp := out.1 }, out.2) := by
  rw [handleMessage, h]
  rfl

/-- Between lock and unlock the branch does all it does with the databases. -/
theorem mempoolRest_enter (net : Net) (fuel : ℕ) (m : MempoolMsg) (dbs : Dbs) :
    mempoolRest env m dbs (.inl (mempoolSection env m).enter) =
      handleAtOnce env net fuel m dbs := by
  rw [handleAtOnce]
  rcases m.takes with htx | hmempool | ⟨hgetdata, hdtype⟩
  · have henter : (mempoolSection env m).enter = .test := if_pos htx
    rw [henter, handleMessage_tx env htx]
    show (handleTx env m.mem.dest m.mem.entry dbs m.msg).map _ = _
    cases handleTx env m.mem.dest m.mem.entry dbs m.msg <;> rfl
  · have henter : (mempoolSection env m).enter = .max := by
      rw [mempoolSection, hmempool]
      rfl
    rw [henter, handleMessage_mempool hmempool, handleMempool, buildMempoolList,
      List.range_eq_range']
    show ((List.range' 0 dbs.mempool.count).foldlM (copyEntry dbs.mempool) _).map _ = _
    cases (List.range' 0 dbs.mempool.count).foldlM (copyEntry dbs.mempool)
      (m.resp.shift ctypeInvPosIds) <;> rfl
  · have henter : (mempoolSection env m).enter =
        .next ⟨m.resp, idOffsets (idsCount m.msg).toNat, []⟩ := by
      rw [mempoolSection, hgetdata]
      rfl
    rw [henter, handleMessage_getdata hgetdata, handleGetdata, hdtype]
    show (collectState (answerTx dbs.mempool m.msg) _ m.resp).map _ =
      (collectState (answerTx dbs.mempool m.msg) _ m.resp >>= _).map _
    cases collectState (answerTx dbs.mempool m.msg) (idOffsets (idsCount m.msg).toNat) m.resp <;>
      rfl

/-- The threads that handle messages, some of them between lock and unlock. -/
abbrev MempoolThreads (ι : Type) : Type := Shared ι Dbs MempoolPc Reply

variable {ι : Type}

/-- A run of these threads, from databases that no thread is at work on. -/
def mempoolRun [DecidableEq ι] (env : Env B) (m : ι → MempoolMsg)
    (events : List (SectionEvent ι)) (dbs : Dbs) :
    Option (MempoolThreads ι) :=
  sectionRun (fun i => mempoolSection env (m i)) events (.start dbs)

/-- What is reached is what is reached by handling the messages of `order` one at a time,
each to its end, with these replies. -/
structure HandledInTurn (env : Env B) (net : Net) (fuel : ℕ) (m : ι → MempoolMsg) (dbs : Dbs)
    (order : List (ι × Reply)) (s : MempoolThreads ι) : Prop where
  /-- Each message once, and exactly those whose handling is over. -/
  nodup : (order.map Prod.fst).Nodup
  finished : ∀ i reply, s.phase i = .done reply ↔ (i, reply) ∈ order
  /-- One thread at a time has the mutex. -/
  exclusive : HeldBy s.owner s.Inside
  data : ∃ d, InTurn (fun i => handleAtOnce env net fuel (m i)) order dbs d ∧
    (s.owner = none → s.data = d)

theorem HandledInTurn.of_serial {net : Net} {fuel : ℕ} {m : ι → MempoolMsg} {dbs : Dbs}
    {order : List (ι × Reply)} {s : MempoolThreads ι}
    (h : Serial (fun i => mempoolSection env (m i)) (fun i => mempoolRest env (m i)) dbs order s) :
    HandledInTurn env net fuel m dbs order s := by
  obtain ⟨d, hturn, hdata, -⟩ := h.turn
  have hwhole : wholeSection (fun i => mempoolSection env (m i)) (fun i => mempoolRest env (m i)) =
      fun i => handleAtOnce env net fuel (m i) := by
    funext i e
    exact mempoolRest_enter net fuel (m i) e
  rw [hwhole] at hturn
  exact ⟨h.nodup, h.finished, h.held, d, hturn, hdata⟩

/-- **The mempool mutex.** Any number of threads handle `<tx>`, `<mempool>` and `<getdata>`
messages for the mempool, their steps in any order. At each point of a run the databases
and the replies are those of the messages handled so far, one at a time, and what is
handled later stands later in that order. -/
theorem mempool_serialised [DecidableEq ι] (env : Env B) (net : Net) (fuel : ℕ)
    (m : ι → MempoolMsg) (dbs : Dbs)
    {events later : List (SectionEvent ι)} {s t : MempoolThreads ι}
    (hs : mempoolRun env m events dbs = some s)
    (ht : mempoolRun env m (events ++ later) dbs = some t) :
    ∃ order more, HandledInTurn env net fuel m dbs order s ∧
      HandledInTurn env net fuel m dbs (order ++ more) t := by
  have hleaves : ∀ i, (mempoolSection env (m i)).Leaves (mempoolRest env (m i)) :=
    fun i => mempoolSection_leaves (m i)
  have hlater : sectionRun (fun i => mempoolSection env (m i)) later s = some t := by
    rw [mempoolRun, sectionRun, List.foldlM_append] at ht
    obtain ⟨s', hs', ht⟩ := Option.bind_eq_some_iff.mp ht
    cases hs.symm.trans hs'
    exact ht
  obtain ⟨order, hserial⟩ := Serial.run hleaves (serial_start dbs) hs
  obtain ⟨more, hmore⟩ := hserial.run hleaves hlater
  exact ⟨order, more, .of_serial hserial, .of_serial hmore⟩

/-- A `<tx>` with a transaction of ten zeros, and a `<mempool>`. -/
def txThenMempool : Bool → MempoolMsg
  | false => ⟨.zero, Mem.ofBytes [0, 1, ctypeTx], fun _ => 0, .inl rfl⟩
  | true => ⟨.zero, Mem.ofBytes [0, 1, ctypeMempool], fun _ => 0, .inr (.inl rfl)⟩

/-- The first thread goes through its section, and so does the second. -/
def firstSection : List (SectionEvent Bool) :=
  .lock false :: List.replicate 6 (.step false) ++ [.unlock false]

def secondSection : List (SectionEvent Bool) :=
  .lock true :: List.replicate 3 (.step true) ++ [.unlock true]

theorem mempool_serialised_twoThreads :
    ∃ s t order more, mempoolRun sampleEnv txThenMempool firstSection emptyNode = some s ∧
      mempoolRun sampleEnv txThenMempool (firstSection ++ secondSection) emptyNode = some t ∧
      HandledInTurn sampleEnv ⟨[], true⟩ 0 txThenMempool emptyNode order s ∧
      HandledInTurn sampleEnv ⟨[], true⟩ 0 txThenMempool emptyNode (order ++ more) t := by
  have hs : (mempoolRun sampleEnv txThenMempool firstSection emptyNode).isSome = true := by
    decide
  have ht : (mempoolRun sampleEnv txThenMempool (firstSection ++ secondSection)
      emptyNode).isSome = true := by
    decide
  obtain ⟨s, hs⟩ := Option.isSome_iff_exists.mp hs
  obtain ⟨t, ht⟩ := Option.isSome_iff_exists.mp ht
  obtain ⟨order, more, hfirst, hboth⟩ :=
    mempool_serialised sampleEnv ⟨[], true⟩ 0 txThenMempool emptyNode hs ht
  exact ⟨s, t, order, more, hs, ht, hfirst, hboth⟩

end Freecoin
