import Freecoin.Network.Connection
import Freecoin.Network.Exchange

/-!
# What makes the process exit

`fatal` prints a text and exits, and the peers of a node must not be able to
bring that about. None of the branches calls it for any state of the
databases, except that `m_tx_gen` does for a transaction that claims to be
too large, and `data_limbo_scan` when its cursor cannot be opened.
-/

namespace Freecoin

open Lib

/-- The fault is not a call of `fatal`. -/
def NotFatal (e : Fault) : Prop := ∀ text, e ≠ .fatal text

theorem notFatal_badPointer : NotFatal .badPointer := by
  intro text h
  cases h

theorem notFatal_outOfFuel : NotFatal .outOfFuel := by
  intro text h
  cases h

/-! ## The scan and its reorganisation -/

section Scan

variable {B : Bdb} (env : Env B)

theorem oldTxs_notFatal (u : ℕ → EntryMem) :
    ∀ txs j dbs, FailsOnly NotFatal (oldTxs env u txs j dbs) := by
  intro txs
  induction txs with
  | nil => intro j dbs; exact .ok dbs
  | cons tx rest ih =>
      intro j dbs
      exact (dataMempoolAdd_fails notFatal_badPointer ..).bind fun mempool => ih _ _

theorem newTxs_notFatal (blockHash : Bytes) :
    ∀ txs dbs, FailsOnly NotFatal (newTxs env blockHash txs dbs) := by
  intro txs
  induction txs with
  | nil => intro dbs; exact .ok dbs
  | cons tx rest ih =>
      intro dbs
      exact (dataMempoolDel_fails notFatal_badPointer ..).bind fun deleted => ih _

theorem oldBlocks_notFatal (u : RevertMem) (common : ℕ) :
    ∀ n s, FailsOnly NotFatal (oldBlocks env u common n s) := by
  intro n
  induction n with
  | zero => intro s; exact .ok _
  | succ n ih =>
      intro s
      rw [oldBlocks]
      refine .ite (fun _ => ?_) fun _ => .ok _
      exact (oldTxs_notFatal env ..).bind fun dbs => ih _

theorem newBlocks_notFatal (u : RevertMem) (common : UInt32) :
    ∀ fuel k s, FailsOnly NotFatal (newBlocks env u common fuel k s) := by
  intro fuel
  induction fuel with
  | zero => intro k s; exact .error notFatal_outOfFuel
  | succ fuel ih =>
      intro k s
      rw [newBlocks]
      refine .ite (fun _ => .ok _) fun _ => ?_
      exact (newTxs_notFatal env ..).bind fun dbs => ih _ _

theorem dataBlocksRevert_notFatal (u : RevertMem) (fuel : ℕ) (dbs : Dbs) (common newLatest : Mem) :
    FailsOnly NotFatal (dataBlocksRevert env u fuel dbs common newLatest) := by
  rw [dataBlocksRevert]
  refine .ite (fun _ => ?_) fun _ => .ok _
  refine (oldBlocks_notFatal env ..).bind fun old => ?_
  refine .ite (fun _ => ?_) fun _ => .ok _
  exact (newBlocks_notFatal env ..).bind fun s => .ok _

theorem scanHash_notFatal (u : RevertMem) (fuel : ℕ) (above : UInt32) (s : ScanState)
    (hash : Mem) : FailsOnly NotFatal (scanHash env u fuel above s hash) := by
  rw [scanHash]
  refine .ite (fun _ => ?_) fun _ => .ok s
  refine .ite (fun _ => ?_) fun _ => .ok _
  exact (dataBlocksRevert_notFatal env ..).bind fun reverted => .ok _

theorem scanLoop_notFatal (u : RevertMem) (fuel : ℕ) (currHeight : UInt32) :
    ∀ n pos index buffer s,
      FailsOnly NotFatal (scanLoop env u fuel currHeight n pos index buffer s) := by
  intro n
  induction n with
  | zero => intro pos index buffer s; exact .error notFatal_outOfFuel
  | succ n ih =>
      intro pos index buffer s
      rw [scanLoop]
      split
      · exact .ok s
      · refine .ite (fun _ => ?_) fun _ => .ok s
        refine .ite (fun _ => .ok s) fun _ => ?_
        exact (FailsOnly.foldlM (fun s i => scanHash_notFatal env ..) _ s).bind fun s' =>
          ih _ _ _ s'

theorem handleBlock_notFatal (u : BlockMem) (fuel : ℕ) (dbs : Dbs) (msg : Mem) :
    FailsOnly NotFatal (handleBlock env u fuel dbs msg) := by
  have hscan : ∀ dbs, FailsOnly NotFatal (dataLimboScan env u.scan fuel dbs) := fun dbs =>
    (scanLoop_notFatal env ..).bind fun s => .ok _
  exact (hscan _).bind fun scanned => .ok _

end Scan

/-! ## The answers -/

theorem handleMempool_notFatal (ret : UInt8) (dbs : Dbs) (resp : Mem) :
    FailsOnly NotFatal (handleMempool ret dbs resp) := by
  have hcopy : ∀ dest i, FailsOnly NotFatal (copyEntry dbs.mempool dest i) := by
    intro dest i
    rw [copyEntry]
    split
    · exact .error notFatal_badPointer
    · exact .ok _
  have hlist : FailsOnly NotFatal
      (buildMempoolList ret dbs.mempool (resp.shift ctypeInvPosIds)) :=
    (FailsOnly.foldlM hcopy _ _).bind fun dest => .ok _
  exact hlist.bind fun list => .ok _

theorem answerTx_notFatal (p : Mempool) (msg resp : Mem) (i : ℕ) :
    FailsOnly NotFatal (answerTx p msg resp i) := by
  refine (dataMempoolExists_fails notFatal_badPointer ..).bind fun found => ?_
  refine .ite (fun _ => ?_) fun _ => .ok _
  split
  · exact .error notFatal_badPointer
  · exact .ok _

section Answers

variable {B : Bdb} (env : Env B) (net : Net)

theorem handleGetdata_notFatal (addr : UInt8) (dbs : Dbs) (resp msg : Mem) :
    FailsOnly NotFatal (handleGetdata env net addr dbs resp msg) := by
  have hblock : ∀ resp i, FailsOnly NotFatal (answerBlock env addr dbs msg resp i) := by
    intro resp i
    rw [answerBlock]
    exact .ite (fun _ => .ok _) fun _ => .ok _
  rw [handleGetdata]
  refine .ite (fun _ => FailsOnly.collectState hblock _ _) fun _ => ?_
  refine .ite (fun _ => FailsOnly.collectState (answerTx_notFatal dbs.mempool msg) _ _)
    fun _ => ?_
  exact .ite (fun _ => FailsOnly.collectState (fun resp peer => .ok _) _ _) fun _ => .ok _

/-! ## A `<tx>` that is too large -/

/-- With room in the mempool, a transaction of too large a size is fatal. -/
theorem handleTx_fatal {dest : Mem} {u : EntryMem} {dbs : Dbs} {msg : Mem}
    (hroom : dbs.mempool.count < env.maxMempoolSize)
    (hsize : maxTxSize < claimedSize env.host msg) :
    handleTx env dest u dbs msg = .error (.fatal "Tx overflow") := by
  have hbuilt : rebuiltTx env dest msg = .error (.fatal "Tx overflow") := if_pos hsize
  rw [handleTx_room hroom, hbuilt]
  rfl

theorem handleTx_notFatal {dest : Mem} {u : EntryMem} {dbs : Dbs} {msg : Mem}
    (h : ¬ (dbs.mempool.count < env.maxMempoolSize ∧ maxTxSize < claimedSize env.host msg)) :
    FailsOnly NotFatal (handleTx env dest u dbs msg) := by
  by_cases hroom : dbs.mempool.count < env.maxMempoolSize
  · have hgen : FailsOnly NotFatal (rebuiltTx env dest msg) := by
      rw [rebuiltTx, mTxGen]
      exact .ite (fun hsize => absurd ⟨hroom, hsize⟩ h) fun _ => .ok _
    rw [handleTx_room hroom]
    refine hgen.bind fun tx => ?_
    exact (dataMempoolAdd_fails notFatal_badPointer ..).bind fun mempool => .ok _
  · rw [handleTx, if_neg hroom]
    exact .ok dbs

end Answers

/-- **Fatal messages.** A message that is neither a `<peer>` nor an `<alert>` makes the
node exit, for some fuel, if and only if it is a `<tx>` that is taken up and
claims more than `MAX_TX_SIZE` bytes, or a `<block>` and the cursor of the
limbo scan does not open. -/
theorem handleMessage_notFatal_iff {B : Bdb} (env : Env B) (net : Net) (u : MsgMem) (s : Conn)
    (msg : Mem) (hpeer : msgCtype msg ≠ ctypePeer) (halert : msgCtype msg ≠ ctypeAlert) :
    (∀ fuel text, handleMessage env net u fuel s msg ≠ .error (.fatal text)) ↔
      ¬ (msgCtype msg = ctypeTx ∧ s.dbs.mempool.count < env.maxMempoolSize ∧
        maxTxSize < claimedSize env.host msg) ∧
      (msgCtype msg = ctypeBlock → net.lastOpens = true) := by
  constructor
  · intro h
    refine ⟨?_, fun hblock => ?_⟩
    · rintro ⟨htx, hroom, hsize⟩
      refine h 0 "Tx overflow" ?_
      rw [handleMessage_tx env htx, handleTx_fatal env hroom hsize]
      rfl
    · by_contra hclosed
      refine h 0 "failed to init cursor in limbo_scan" ?_
      rw [handleMessage_block env hblock, if_neg hclosed]
  · rintro ⟨htx, hblock⟩ fuel text hfatal
    suffices hkind : FailsOnly NotFatal (handleMessage env net u fuel s msg) from
      hkind.kind _ hfatal text rfl
    rw [handleMessage]
    refine .ite (fun _ => .ok _) fun _ => ?_
    refine .ite (fun _ => .ok _) fun _ => ?_
    refine .ite (fun _ => (handleMempool_notFatal ..).bind fun out => .ok _) fun _ => ?_
    refine .ite (fun _ => .ok _) fun _ => ?_
    refine .ite (fun _ => (handleGetdata_notFatal ..).bind fun out => .ok _) fun _ => ?_
    refine .ite (fun hc => ?_) fun _ => ?_
    · rw [if_pos (hblock hc)]
      exact (handleBlock_notFatal ..).bind fun out => .ok _
    refine .ite (fun hc => ?_) fun _ => ?_
    · exact (handleTx_notFatal env fun hbig => htx ⟨hc, hbig⟩).bind fun dbs => .ok _
    refine .ite (fun hc => absurd hc hpeer) fun _ => ?_
    refine .ite (fun hc => absurd hc halert) fun _ => ?_
    exact .ite (fun _ => .ok _) fun _ => .ok _

/-- A `<tx>` without inputs and outputs does no harm. -/
theorem emptyTx_not_fatal :
    msgCtype (Mem.ofBytes [0, 1, 6]) ≠ ctypePeer ∧ msgCtype (Mem.ofBytes [0, 1, 6]) ≠ ctypeAlert ∧
    ∀ fuel text, handleMessage sampleEnv ⟨[], true⟩ .zero fuel ⟨emptyNode, fun _ => 0⟩
      (Mem.ofBytes [0, 1, 6]) ≠ .error (.fatal text) :=
  ⟨by decide, by decide,
    (handleMessage_notFatal_iff sampleEnv ⟨[], true⟩ .zero ⟨emptyNode, fun _ => 0⟩
      (Mem.ofBytes [0, 1, 6]) (by decide) (by decide)).mpr
      ⟨fun h => absurd h.2.2 (by decide), fun _ => rfl⟩⟩

/-- A `<tx>` of ten bytes that claims 65535 inputs and outputs makes a new node exit. -/
theorem large_tx_fatal :
    ¬ ∀ (s : Conn) (wire : Bytes), wire.length ≤ maxMsgSize →
      msgVersion sampleEnv.host (Mem.ofBytes wire) = clientVersion →
      msgCtype (Mem.ofBytes wire) ≠ ctypePeer → msgCtype (Mem.ofBytes wire) ≠ ctypeAlert →
      ∀ fuel text, handleMessage sampleEnv ⟨[], true⟩ .zero fuel s (Mem.ofBytes wire) ≠
        .error (.fatal text) := by
  intro h
  refine h ⟨emptyNode, fun _ => 0⟩ ([0, 1, 6, 0, 0, 0] ++ List.replicate 8 0xff) (by decide)
    (by decide) (by decide) (by decide) 0 "Tx overflow" ?_
  rw [handleMessage_tx sampleEnv (by decide), handleTx_fatal sampleEnv (by decide) (by decide)]
  rfl

end Freecoin
