import Freecoin.Lib.Mutex
import Freecoin.Miner
import Freecoin.Network.Connection

/-!
# Who touches the mempool, and who holds its mutex

The functions from which the mempool is reached, once more, this time with
`pthread_mutex_lock` and `pthread_mutex_unlock` on `mempool->mutex` and with
every call of a `data_mempool_*` function. They compute what the functions of
the same name in `Freecoin` do: the theorems that end in `_result` say so.

`build_mempool_list` and the branches for `<tx>` and for a `<getdata>` of
transactions lock the mutex themselves. Neither `data_blocks_revert` nor
anything above it does, and neither does the miner.
-/

namespace Freecoin.Locks

open Lib Lib.Traced

/-- What a thread computes, and what it does with the mempool and its mutex. -/
abbrev Thread : Type → Type := Traced MutexEvent Fault

variable {B : Bdb} (env : Env B)

/-! ## data.c -/

/-- The transactions of an old block, from the `j`-th on. -/
def oldTxs (u : ℕ → EntryMem) : List Mem → ℕ → Dbs → Thread Dbs
  | [], _, dbs => pure dbs
  | tx :: rest, j, dbs => do
      let dbs := dataTxsDel B dbs (txComputeHash env.host env.digest tx)
      let mempool ← touching (dataMempoolAdd env.host env.digest (u j) dbs.mempool tx)
      oldTxs u rest (j + 1) { dbs with mempool := mempool }

/-- Old block processing. -/
def oldBlocks (u : RevertMem) (common : ℕ) : ℕ → RevertState → Thread (Bool × RevertState)
  | 0, s => pure (true, s)
  | n + 1, s => do
      let i := common + (n + 1)
      let hash := (dataChainGet env s.dbs (UInt32.ofNat i) s.currBlockHash).2
      let got := dataBlocksGet B s.dbs hash s.currBlock
      if got.1 then
        let dbs ← oldTxs env (u.entry i) (blockTxs env.host got.2) 0 s.dbs
        oldBlocks u common n ⟨dataLimboSafeAdd env (u.limboAdd i) dbs got.2, got.2, hash⟩
      else return (false, ⟨s.dbs, got.2, hash⟩)

/-- The transactions of a new block. -/
def newTxs (blockHash : Bytes) : List Mem → Dbs → Thread Dbs
  | [], dbs => pure dbs
  | tx :: rest, dbs => do
      let txHash := txComputeHash env.host env.digest tx
      let dbs := dataTxsAdd B dbs txHash blockHash
      let deleted ← touching (dataMempoolDel dbs.mempool txHash)
      newTxs blockHash rest { dbs with mempool := deleted.2 }

/-- New block processing, from pass `k` on. -/
def newBlocks (u : RevertMem) (common : UInt32) : ℕ → ℕ → RevertState → Thread RevertState
  | 0, _, _ => lift (.error .outOfFuel)
  | fuel + 1, k, s => do
      let block := (dataBlocksGet B s.dbs s.currBlockHash s.currBlock).2
      if blockGetHeight env.host block = common then return { s with currBlock := block }
      let dbs ← newTxs env (s.currBlockHash.slice 0 sizeSha256) (blockTxs env.host block) s.dbs
      let dbs := dataLimboDel env (u.limboDel k) dbs block
      let dbs := dataChainSafeSet env (u.chainHeader k) dbs block
      newBlocks u common fuel (k + 1)
        ⟨dbs, block, s.currBlockHash.write 0 (blockGetPrevHash block)⟩

/-- `data_blocks_revert(dbs, common_block_hash, new_latest_block_hash)`. -/
def dataBlocksRevert (u : RevertMem) (fuel : ℕ) (dbs : Dbs) (commonBlockHash newLatest : Mem) :
    Thread (Bool × Dbs) := do
  let initialHeight := dataChainGetHeight env u.height dbs
  let got := dataBlocksGetHeader B dbs commonBlockHash u.commonBlock
  if got.1 then
    let commonHeight := blockGetHeight env.host got.2
    let old ← oldBlocks env u commonHeight.toNat (initialHeight.toNat - commonHeight.toNat)
      ⟨dbs, u.currBlock, u.currBlockHash⟩
    if old.1 then
      let hash := old.2.currBlockHash.write 0 (newLatest.slice 0 sizeSha256)
      let s ← newBlocks env u commonHeight fuel 0 ⟨old.2.dbs, old.2.currBlock, hash⟩
      return (true, s.dbs)
    else return (false, old.2.dbs)
  else return (false, dbs)

/-- The body of the loop over the hashes of a level. -/
def scanHash (u : RevertMem) (fuel : ℕ) (above : UInt32) (s : ScanState) (hash : Mem) :
    Thread ScanState :=
  let traced := env.canTraceBack s.dbs hash
  if traced.1 then
    if startsReorg env s hash then do
      let reverted ← dataBlocksRevert env u fuel s.dbs hash traced.2
      let inv := Sent.msgallInv dtypeBlock (hash.slice 0 sizeSha256) above
      return ⟨reverted.2, true, s.sent ++ [inv]⟩
    else
      let getdata := Sent.msgallGetdata dtypeBlock (traced.2.slice 0 sizeSha256)
      return { s with sent := s.sent ++ [getdata] }
  else return s

/-- The loop over the hashes of the level in `buffer`. -/
def scanLevel (u : RevertMem) (fuel : ℕ) (above : UInt32) (buffer : Mem) (s : ScanState) :
    Thread ScanState :=
  (List.range (limboArray env buffer).length.toNat).foldlM
    (fun s i => scanHash env u fuel above s (buffer.shift (4 + sizeSha256 * i))) s

/-- The loop over the levels, from cursor position `pos` on. -/
def scanLoop (u : RevertMem) (fuel : ℕ) (currHeight : UInt32) :
    ℕ → Option Bytes → Mem → Mem → ScanState → Thread ScanState
  | 0, _, _, _, _ => lift (.error .outOfFuel)
  | n + 1, pos, index, buffer, s =>
      match dbPrev s.dbs.limbo pos with
      | none => pure s
      | some (key, record) =>
          if B.fits (newDbt index 4) key.length &&
              B.fits (newDbt buffer (limboBufferSize env)) record.length then
            let index := index.load key
            let buffer := buffer.load record
            let height := hostWord32 env.host index
            if height ≤ currHeight then pure s
            else do
              let s ← scanLevel env u fuel (height - currHeight) buffer s
              scanLoop u fuel currHeight n (some key) index buffer s
          else pure s

/-- `data_limbo_scan(dbs, network)`. -/
def dataLimboScan (u : ScanMem) (fuel : ℕ) (dbs : Dbs) : Thread (Dbs × List Sent) := do
  let currHeight := dataChainGetHeight env u.height dbs
  let s ← scanLoop env u.revert fuel currHeight fuel none u.index u.buffer ⟨dbs, false, []⟩
  return (s.dbs, s.sent)

/-! ## build.c and network.c -/

/-- `build_mempool_list(dbs, dest)`. -/
def buildMempoolList (ret : UInt8) (mempool : Mempool) (dest : Mem) : Thread (UInt8 × Mem) := do
  let dest ← locked do
    let max ← touching (.ok mempool.count)
    (List.range max).foldlM (fun dest i => touching (copyEntry mempool dest i)) dest
  return (ret, dest)

/-- The `CTYPE_MEMPOOL` branch. -/
def handleMempool (ret : UInt8) (dbs : Dbs) (resp : Mem) : Thread (Mem × List Sent) := do
  let list ← buildMempoolList ret dbs.mempool (resp.shift ctypeInvPosIds)
  return idsReply ctypeInv dtypeTx list.1 list.2 resp

/-- One pass of the loop over transaction ids, at offset `i`. -/
def answerTx (mempool : Mempool) (msg resp : Mem) (i : ℕ) : Thread (Mem × List Sent) := do
  let found ← touching (dataMempoolExists mempool (idAt msg i))
  if found then
    let got ← touching (.ok (dataMempoolGet mempool i))
    match got with
    | none => lift (.error .badPointer)
    | some tx =>
        let resp := resp.write ctypeTxPosTx tx.bytes
        let resp := resp.write ctypeTxPosSize (uitob (UInt32.ofNat tx.size))
        return (resp, [.toPeer ctypeTx (resp.slice 0 (4 + tx.size))])
  else return (resp, [])

/-- That loop. -/
def answerTxs (mempool : Mempool) (msg : Mem) : List ℕ → Mem → Thread (Mem × List Sent)
  | [], resp => pure (resp, [])
  | i :: rest, resp => do
      let done ← answerTx mempool msg resp i
      let later ← answerTxs mempool msg rest done.1
      return (later.1, done.2 ++ later.2)

variable (net : Net)

/-- The `CTYPE_GETDATA` branch. Blocks and nodes are sent without the mempool. -/
def handleGetdata (addr : UInt8) (dbs : Dbs) (resp msg : Mem) : Thread (Mem × List Sent) :=
  if msg ctypeGetdataPosDatatype = dtypeTx then
    locked (answerTxs dbs.mempool msg (idOffsets (idsCount msg).toNat) resp)
  else lift (Freecoin.handleGetdata env net addr dbs resp msg)

/-- The `CTYPE_BLOCK` branch. The mutex that it locks is that of the peers. -/
def handleBlock (u : BlockMem) (fuel : ℕ) (dbs : Dbs) (msg : Mem) : Thread (Dbs × List Sent) := do
  let block := msg.shift ctypeBlockPosBlock
  let scanned ← dataLimboScan env u.scan fuel (fileBlock env u dbs block)
  return (scanned.1, blockReply env u dbs block ++ scanned.2)

/-- The `CTYPE_TX` branch. -/
def handleTx (dest : Mem) (u : EntryMem) (dbs : Dbs) (msg : Mem) : Thread Dbs := locked do
  let count ← touching (.ok dbs.mempool.count)
  if count < env.maxMempoolSize then
    let body := msg.shift ctypeTxPosTx
    let inCount := btous env.host (body.shift posTxInCount)
    let outCount := btous env.host (body.shift posTxOutCount)
    let lockTime := btoui env.host (body.shift posTxLockTime)
    let tx ← lift (mTxGen env.gccVersion inCount outCount lockTime (body.shift posTxBody)
      (body.shift (posTxBody + inCount.toNat * sizeTxInput)) dest)
    let mempool ← touching (dataMempoolAdd env.host env.digest u dbs.mempool tx.1)
    return { dbs with mempool := mempool }
  else return dbs

/-- What is done with a message of the right version. The other branches do not come
near the mempool. -/
def handleMessage (u : MsgMem) (fuel : ℕ) (s : Conn) (msg : Mem) : Thread (Conn × List Sent) :=
  let ctype := msgCtype msg
  if ctype = ctypeMempool then do
    let out ← handleMempool u.ret s.dbs s.resp
    return ({ s with resp := out.1 }, out.2)
  else if ctype = ctypeGetdata then do
    let out ← handleGetdata env net u.addr s.dbs s.resp msg
    return ({ s with resp := out.1 }, out.2)
  else if ctype = ctypeBlock then
    if net.lastOpens then do
      let out ← handleBlock env u.block fuel s.dbs msg
      return (⟨out.1, blockResp env u.block s.dbs (msg.shift ctypeBlockPosBlock) s.resp⟩, out.2)
    else lift (.error (.fatal "failed to init cursor in limbo_scan"))
  else if ctype = ctypeTx then do
    let dbs ← handleTx env u.dest u.entry s.dbs msg
    return ({ s with dbs := dbs }, [])
  else lift (Freecoin.handleMessage env net u fuel s msg)

/-- `handle_connection`: what its thread does to the mempool and its mutex, and what can
be seen of it. `others k` is what the other threads do to the databases before message
`k` is handled. -/
def handleConnection (others : ℕ → Dbs → Dbs) (u : ℕ → MsgMem) (fuel : ℕ) :
    List Bytes → ℕ → Mem → Conn → List MutexEvent × List Event
  | [], _, _, _ => ([], [])
  | chunk :: rest, k, stale, s =>
      let msg := recvMsg stale chunk
      if chunk = [] then ([], [])
      else if msgVersion env.host msg = clientVersion then
        let handled := handleMessage env net (u k) fuel { s with dbs := others k s.dbs } msg
        match handled.result with
        | .error e => (handled.events, [.died chunk e])
        | .ok (s', sent) =>
            let later := handleConnection others u fuel rest (k + 1) msg s'
            (handled.events ++ later.1, .handled (msgCtype msg) chunk s'.dbs sent :: later.2)
      else ([], [.rejected (rejectReply s.resp)])

/-! ## mine.c -/

/-- The loop over the new transactions, `n` passes from index `i` on. -/
def addMempoolTxs (o : ByteOrder) (addr : UInt8) (mempool : Mempool) : ℕ → ℕ → Mem → Thread Mem
  | 0, _, workblock => pure workblock
  | n + 1, i, workblock => do
      let tx ← touching (.ok (dataMempoolGet mempool i))
      let added ← lift (blockAddTx o addr workblock tx)
      addMempoolTxs o addr mempool n (i + 1) added

/-- The check for new mempool transactions. `newTxCount` is where the size of the
mempool is asked for. -/
def refresh (o : ByteOrder) (addr : UInt8) (mempool : Mempool) (workblock : Mem) : Thread Mem := do
  let diff ← touching (.ok (newTxCount o mempool workblock))
  addMempoolTxs o addr mempool diff 0 workblock

/-- The inner loop, until the workblock is stale. -/
def minerLoop (o : ByteOrder) (addr : UInt8) : List Pass → Mem → Thread (Mem × List Mem)
  | [], workblock => pure (workblock, [])
  | pass :: rest, workblock => do
      let refreshed ← refresh o addr pass.mempool workblock
      let entered := refreshed.write posBlockTime (uitob pass.time)
      let later ← minerLoop o addr rest (nthHeader o entered pass.nonces)
      return (later.1, entered :: later.2)

/-- The outer loop over new blocks. -/
def minerRun (o : ByteOrder) (H : Digest) (addr : UInt8) :
    List (NewBlock × List Pass) → Mem → Thread (List Mem)
  | [], _ => pure []
  | block :: rest, workblock => do
      let started ← lift (startBlock o H addr block.1 workblock)
      let done ← minerLoop o addr block.2 started
      let later ← minerRun o H addr rest done.1
      return done.2 ++ later

/-! ## They compute the same -/

section Results

variable {env : Env B}

theorem oldTxs_result {u : ℕ → EntryMem} {txs : List Mem} : ∀ {j : ℕ} {dbs : Dbs},
    (oldTxs env u txs j dbs).result = Freecoin.oldTxs env u txs j dbs := by
  induction txs with
  | nil => intro j dbs; rfl
  | cons tx rest ih =>
      intro j dbs
      rw [oldTxs, Freecoin.oldTxs, result_bind, result_touching]
      exact bind_congr fun mempool => ih

theorem oldBlocks_result {u : RevertMem} {common n : ℕ} : ∀ {s : RevertState},
    (oldBlocks env u common n s).result = Freecoin.oldBlocks env u common n s := by
  induction n with
  | zero => intro s; rfl
  | succ n ih =>
      intro s
      rw [oldBlocks, Freecoin.oldBlocks]
      split
      · rw [result_bind, oldTxs_result]
        exact bind_congr fun dbs => ih
      · rfl

theorem newTxs_result {blockHash : Bytes} {txs : List Mem} : ∀ {dbs : Dbs},
    (newTxs env blockHash txs dbs).result = Freecoin.newTxs env blockHash txs dbs := by
  induction txs with
  | nil => intro dbs; rfl
  | cons tx rest ih =>
      intro dbs
      rw [newTxs, Freecoin.newTxs, result_bind, result_touching]
      exact bind_congr fun deleted => ih

theorem newBlocks_result {u : RevertMem} {common : UInt32} {fuel : ℕ} : ∀ {k : ℕ} {s : RevertState},
    (newBlocks env u common fuel k s).result = Freecoin.newBlocks env u common fuel k s := by
  induction fuel with
  | zero => intro k s; rfl
  | succ fuel ih =>
      intro k s
      rw [newBlocks, Freecoin.newBlocks]
      dsimp only
      split
      · rfl
      · rw [result_bind, newTxs_result]
        exact bind_congr fun dbs => ih

theorem dataBlocksRevert_result (u : RevertMem) (fuel : ℕ) (dbs : Dbs) (common newLatest : Mem) :
    (dataBlocksRevert env u fuel dbs common newLatest).result =
      Freecoin.dataBlocksRevert env u fuel dbs common newLatest := by
  rw [dataBlocksRevert, Freecoin.dataBlocksRevert]
  dsimp only
  split
  · rw [result_bind, oldBlocks_result]
    refine bind_congr fun old => ?_
    split
    · rw [result_bind, newBlocks_result]
      rfl
    · rfl
  · rfl

theorem scanHash_result (u : RevertMem) (fuel : ℕ) (above : UInt32) (s : ScanState) (hash : Mem) :
    (scanHash env u fuel above s hash).result = Freecoin.scanHash env u fuel above s hash := by
  rw [scanHash, Freecoin.scanHash]
  dsimp only
  split
  · split
    · rw [result_bind, dataBlocksRevert_result]
      rfl
    · rfl
  · rfl

theorem scanLevel_result (u : RevertMem) (fuel : ℕ) (above : UInt32) (buffer : Mem)
    (s : ScanState) :
    (scanLevel env u fuel above buffer s).result = Freecoin.scanLevel env u fuel above buffer s :=
  result_foldlM (fun _ _ => scanHash_result ..) _ _

theorem scanLoop_result {u : RevertMem} {fuel : ℕ} {currHeight : UInt32} {n : ℕ} :
    ∀ {pos : Option Bytes} {index buffer : Mem} {s : ScanState},
      (scanLoop env u fuel currHeight n pos index buffer s).result =
        Freecoin.scanLoop env u fuel currHeight n pos index buffer s := by
  induction n with
  | zero => intro pos index buffer s; rfl
  | succ n ih =>
      intro pos index buffer s
      rw [scanLoop, Freecoin.scanLoop]
      cases dbPrev s.dbs.limbo pos with
      | none => rfl
      | some r =>
          dsimp only
          split
          · split
            · rfl
            · rw [result_bind, scanLevel_result]
              exact bind_congr fun s => ih
          · rfl

theorem handleBlock_result (u : BlockMem) (fuel : ℕ) (dbs : Dbs) (msg : Mem) :
    (handleBlock env u fuel dbs msg).result = Freecoin.handleBlock env u fuel dbs msg := by
  rw [handleBlock, Freecoin.handleBlock, result_bind, dataLimboScan, Freecoin.dataLimboScan]
  rw [result_bind, scanLoop_result]
  rfl

theorem handleMempool_result (ret : UInt8) (dbs : Dbs) (resp : Mem) :
    (handleMempool ret dbs resp).result = Freecoin.handleMempool ret dbs resp := by
  have hcopy := result_foldlM (f := fun dest i => touching (copyEntry dbs.mempool dest i))
    (fun _ _ => rfl) (List.range dbs.mempool.count) (resp.shift ctypeInvPosIds)
  rw [handleMempool, Freecoin.handleMempool, result_bind, buildMempoolList,
    Freecoin.buildMempoolList, result_bind, result_locked, result_bind, result_touching]
  show (Traced.result (List.foldlM _ _ _) >>= _) >>= _ = _
  rw [hcopy]
  rfl

theorem answerTx_result (mempool : Mempool) (msg resp : Mem) (i : ℕ) :
    (answerTx mempool msg resp i).result = Freecoin.answerTx mempool msg resp i := by
  rw [answerTx, Freecoin.answerTx, result_bind, result_touching]
  refine bind_congr fun found => ?_
  split
  · rw [result_bind, result_touching]
    show Traced.result (match dataMempoolGet mempool i with | none => _ | some tx => _) = _
    cases dataMempoolGet mempool i with
    | none => rfl
    | some tx => rfl
  · rfl

theorem answerTxs_result (mempool : Mempool) (msg : Mem) : ∀ (is : List ℕ) (resp : Mem),
    (answerTxs mempool msg is resp).result =
      collectState (Freecoin.answerTx mempool msg) is resp := by
  intro is
  induction is with
  | nil => intro resp; rfl
  | cons i rest ih =>
      intro resp
      rw [answerTxs, collectState, result_bind, answerTx_result]
      refine bind_congr fun done => ?_
      rw [result_bind, ih]
      rfl

theorem handleGetdata_result (net : Net) (addr : UInt8) (dbs : Dbs) (resp msg : Mem) :
    (handleGetdata env net addr dbs resp msg).result =
      Freecoin.handleGetdata env net addr dbs resp msg := by
  rw [handleGetdata]
  split
  · rename_i htx
    rw [result_locked, answerTxs_result, Freecoin.handleGetdata]
    rw [if_neg (by rw [htx]; decide), if_pos htx]
  · rfl

theorem handleTx_result (dest : Mem) (u : EntryMem) (dbs : Dbs) (msg : Mem) :
    (handleTx env dest u dbs msg).result = Freecoin.handleTx env dest u dbs msg := by
  rw [handleTx, Freecoin.handleTx, result_locked, result_bind, result_touching]
  show Traced.result (if dbs.mempool.count < env.maxMempoolSize then _ else _) = _
  split
  · rfl
  · rfl

/-- **The same messages** are handled in the same way. -/
theorem handleMessage_result (net : Net) (u : MsgMem) (fuel : ℕ) (s : Conn) (msg : Mem) :
    (handleMessage env net u fuel s msg).result =
      Freecoin.handleMessage env net u fuel s msg := by
  unfold handleMessage
  dsimp only
  split
  · rename_i hmempool
    rw [result_bind, handleMempool_result, Freecoin.handleMessage, hmempool]
    rfl
  · split
    · rename_i hgetdata
      rw [result_bind, handleGetdata_result, Freecoin.handleMessage, hgetdata]
      rfl
    · split
      · rename_i hblock
        rw [handleMessage_block env hblock]
        split
        · rw [result_bind, handleBlock_result]
          rfl
        · rfl
      · split
        · rename_i htx
          rw [handleMessage_tx env htx, result_bind, handleTx_result]
          rfl
        · rfl

/-- Without other threads, a connection is seen to do the same. -/
theorem handleConnection_events (net : Net) (u : ℕ → MsgMem) (fuel : ℕ) (chunks : List Bytes) :
    ∀ (k : ℕ) (stale : Mem) (s : Conn),
      (handleConnection env net (fun _ dbs => dbs) u fuel chunks k stale s).2 =
        Freecoin.handleConnection env net u fuel chunks k stale s := by
  induction chunks with
  | nil => intro k stale s; rfl
  | cons chunk rest ih =>
      intro k stale s
      rw [handleConnection, Freecoin.handleConnection]
      dsimp only
      split
      · rfl
      · split
        · rw [handleMessage_result]
          cases Freecoin.handleMessage env net (u k) fuel s (recvMsg stale chunk) with
          | error e => rfl
          | ok done => exact congrArg (_ :: ·) (ih (k + 1) (recvMsg stale chunk) done.1)
        · rfl

theorem addMempoolTxs_result {o : ByteOrder} {addr : UInt8} {mempool : Mempool} {n : ℕ} :
    ∀ {i : ℕ} {workblock : Mem}, (addMempoolTxs o addr mempool n i workblock).result =
      Freecoin.addMempoolTxs o addr mempool n i workblock := by
  induction n with
  | zero => intro i workblock; rfl
  | succ n ih =>
      intro i workblock
      rw [addMempoolTxs, Freecoin.addMempoolTxs, result_bind, result_touching]
      exact bind_congr fun added => ih

theorem minerLoop_result {o : ByteOrder} {addr : UInt8} {passes : List Pass} :
    ∀ {workblock : Mem}, (minerLoop o addr passes workblock).result =
      Freecoin.minerLoop o addr passes workblock := by
  induction passes with
  | nil => intro workblock; rfl
  | cons pass rest ih =>
      intro workblock
      rw [minerLoop, Freecoin.minerLoop, result_bind]
      have hrefresh : (refresh o addr pass.mempool workblock).result =
          Freecoin.refresh o addr pass.mempool workblock := addMempoolTxs_result
      rw [hrefresh]
      refine bind_congr fun refreshed => ?_
      dsimp only
      rw [result_bind, ih]
      rfl

/-- The miner hands the same workblocks to `mine`. -/
theorem minerRun_result (o : ByteOrder) (H : Digest) (addr : UInt8)
    (blocks : List (NewBlock × List Pass)) : ∀ workblock : Mem,
      (minerRun o H addr blocks workblock).result =
        Freecoin.minerRun o H addr blocks workblock := by
  induction blocks with
  | nil => intro workblock; rfl
  | cons block rest ih =>
      intro workblock
      rw [minerRun, Freecoin.minerRun, collect, result_bind, result_lift, bind_assoc]
      refine bind_congr fun started => ?_
      rw [result_bind, minerLoop_result]
      refine bind_congr fun done => ?_
      rw [result_bind, ih]
      rfl

end Results

end Freecoin.Locks
