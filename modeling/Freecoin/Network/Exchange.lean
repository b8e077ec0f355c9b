import Freecoin.Network.Getdata

/-!
# Two nodes

What one node makes of what another sends. A block that is not one above the
chain is answered with a request for that same block, which has just been
stored: the two nodes hand it back and forth. A transaction is taken apart
and put together again, and the entry that is stored shows the memory it was
given.
-/

namespace Freecoin

open Lib Relation

/-! ## Requests for blocks -/

/-- Every block that a `<getdata>` in `sent` asks for is absent from `dbs`. -/
def RequestsAbsent (B : Bdb) (dbs : Dbs) (sent : List Sent) : Prop :=
  ∀ x : Bytes, .toPeer ctypeGetdata ([dtypeBlock, 1] ++ x) ∈ sent →
    dataBlocksExists B dbs (Mem.ofBytes x) = false

section Requests

variable {B : Bdb} {env : Env B} {u : BlockMem}

theorem dataBlocksExists_stored (s : Dbs) {block : Mem} (hvalid : env.validBlock block = true) :
    dataBlocksExists B (fileBlock env u s block)
      (Mem.ofBytes (blockComputeHash env.digest block)) = true := by
  rw [dataBlocksExists, fileBlock_blocks, storeBlock, if_pos hvalid]
  exact dbExists_dbPut rfl

theorem not_offTip_iff (h c : UInt32) :
    offTip h c = false ↔ h.toNat = c.toNat + 1 ∨ (h.toNat = 2 ∧ c.toNat = 0) := by
  rw [← Bool.not_eq_true, offTip_iff]
  omega

/-- **Requests.** An accepted block leads to no request for what the node already
has if and only if its height is one above the chain, or it has height 2 and
the chain height 0. -/
theorem requestsAbsent_iff (env : Env B) (u : BlockMem) (s : Dbs) (block : Mem)
    (hvalid : env.validBlock block = true) :
    RequestsAbsent B (fileBlock env u s block) (blockReply env u s block) ↔
      (blockGetHeight env.host block).toNat = (dataChainGetHeight env u.height s).toNat + 1 ∨
      ((blockGetHeight env.host block).toNat = 2 ∧
        (dataChainGetHeight env u.height s).toNat = 0) := by
  rw [← not_offTip_iff, blockReply]
  constructor
  · intro habsent
    by_contra hoff
    rw [if_pos (by simpa using hoff)] at habsent
    have hnone := habsent _ (List.mem_singleton.mpr rfl)
    exact Bool.noConfusion (hnone.symm.trans (dataBlocksExists_stored s hvalid))
  · intro hon x hx
    rw [hon] at hx
    exact absurd hx List.not_mem_nil

end Requests

theorem zero_height_genesisNode :
    dataChainGetHeight sampleEnv BlockMem.zero.height genesisNode = 0 :=
  genesisNode_height

/-- The child of `genesis` reaches a node whose chain is `genesis`: nothing is asked
for. -/
theorem requestsAbsent_child :
    RequestsAbsent .passed
      (fileBlock sampleEnv .zero genesisNode (Mem.ofBytes childRecord))
      (blockReply sampleEnv .zero genesisNode (Mem.ofBytes childRecord)) :=
  (requestsAbsent_iff sampleEnv .zero genesisNode (Mem.ofBytes childRecord) rfl).mpr
    (.inl (by rw [zero_height_genesisNode]; decide))

/-- A node that receives `genesis` a second time stores it and asks for it. -/
theorem genesis_asked_for_again :
    ¬ ∀ (u : BlockMem) (s : Dbs) (block : Mem), sampleEnv.validBlock block = true →
      RequestsAbsent .passed (fileBlock sampleEnv u s block) (blockReply sampleEnv u s block) := by
  intro hall
  have habsent := hall .zero genesisNode genesis rfl
  have hoff : offTip (blockGetHeight sampleEnv.host genesis)
      (dataChainGetHeight sampleEnv BlockMem.zero.height genesisNode) = true := by
    rw [zero_height_genesisNode]
    decide
  rw [blockReply, if_pos hoff] at habsent
  have hnone := habsent _ (List.mem_singleton.mpr rfl)
  exact Bool.noConfusion (hnone.symm.trans (dataBlocksExists_stored genesisNode rfl))

/-! ## A block that goes back and forth -/

/-- One round between a node and a peer with databases `t`: the node handles the
block it was sent last, its request reaches the peer, and the peer's answer is
the next block the node is sent. -/
inductive Exchange (env peer : Env .passed) (u : BlockMem) (addr : UInt8) (t : Dbs) (resp : Mem) :
    Dbs × Mem → Dbs × Mem → Prop where
  | round {s s' : Dbs} {block : Mem} {request answer : Bytes} :
      blockReply env u s block = [.toPeer ctypeGetdata request] →
      Handles env s (.block u (blockMsg block)) s' →
      getdataBlocks peer addr t resp (Mem.ofBytes request) = .ok [.toPeer ctypeBlock answer] →
      Exchange env peer u addr t resp (s, block)
        (s', (Mem.ofBytes answer).shift ctypeBlockPosBlock)

/-- A request for one block is answered with that block. -/
theorem getdataBlocks_one (peer : Env .passed) (addr : UInt8) {t : Dbs} (resp : Mem) {x r : Bytes}
    (hx : x.length = 32) (hr : t.blocks.lookup x = some r) :
    ∃ size, sizeBlockHeader ≤ size ∧
      getdataBlocks peer addr t resp (Mem.ofBytes ([dtypeBlock, 1] ++ x)) =
        .ok [.toPeer ctypeBlock (uitob (UInt32.ofNat size) ++
          (readRecord (resp.shift 4) r).slice 0 size)] := by
  have hcount : idsCount (Mem.ofBytes ([dtypeBlock, 1] ++ x)) = 1 := rfl
  have hid : idAt (Mem.ofBytes ([dtypeBlock, 1] ++ x)) ctypeGetdataPosIds = x := by
    have hslice : (Mem.ofBytes ([dtypeBlock, 1] ++ x)).slice 2 32 =
        (([dtypeBlock, 1] ++ x).drop 2).take 32 := Mem.slice_ofBytes_inside (by simp [hx])
    exact hslice.trans (List.take_of_length_le (Nat.le_of_eq hx))
  rw [← hid] at hr
  refine ⟨_, header_le_blockComputeSize peer.host addr (readRecord (resp.shift 4) r), ?_⟩
  have hpass := answerBlock_stored peer addr t (Mem.ofBytes ([dtypeBlock, 1] ++ x)) hr resp rfl
  unfold getdataBlocks
  rw [hcount]
  show collect (answerBlock peer addr t (Mem.ofBytes ([dtypeBlock, 1] ++ x)))
    [ctypeGetdataPosIds] resp = _
  rw [collect, hpass]
  rfl

section Livelock

variable {env peer : Env .passed} {u : BlockMem} {addr : UInt8} {t : Dbs} {resp : Mem}
  {s s' : Dbs} {block block' : Mem}

/-- Where a node stands in an exchange about `block`: its chain is that of `s`, and
it was sent a block with that header. -/
structure Bouncing (s : Dbs) (block : Mem) (state : Dbs × Mem) : Prop where
  chain : state.1.chain = s.chain
  header : state.2.slice 0 sizeBlockHeader = block.slice 0 sizeBlockHeader

theorem Bouncing.height {state : Dbs × Mem} (h : Bouncing s block state) (o : ByteOrder) :
    blockGetHeight o state.2 = blockGetHeight o block :=
  blockGetHeight_of_header_eq h.header o

/-- The request does not depend on the round. -/
theorem Bouncing.reply (h : Bouncing s block (s', block'))
    (hoff : offTip (blockGetHeight env.host block) (dataChainGetHeight env u.height s) = true) :
    blockReply env u s' block' =
      [.toPeer ctypeGetdata ([dtypeBlock, 1] ++ blockComputeHash env.digest block)] := by
  have hheight : dataChainGetHeight env u.height s' = dataChainGetHeight env u.height s := by
    unfold dataChainGetHeight
    rw [h.chain]
  have hhash : blockComputeHash env.digest block' = blockComputeHash env.digest block :=
    blockComputeHash_of_header_eq h.header env.digest
  unfold blockReply
  rw [h.height, hheight, hhash, if_pos hoff]

/-- Nor does the chain: the block goes to limbo. -/
theorem Bouncing.filed (h : Bouncing s block (s', block'))
    (hoff : offTip (blockGetHeight env.host block) (dataChainGetHeight env u.height s) = true) :
    (fileBlock env u s' block').chain = s.chain := by
  have hfiled : receivedFilings env u s' block' = [.limbo] := by
    unfold receivedFilings blockFilings dataChainGetHeight
    rw [h.height, h.chain]
    exact if_pos hoff
  rw [fileBlock, hfiled]
  exact (storeBlock_chain env u s' block').trans h.chain

/-- **A block that goes back and forth.** A node is sent a block that is not one above
its chain, its peer has that block, and nothing in limbo starts a
reorganisation. Then no exchange of requests and answers ever comes to an end:
whatever state it has reached, the node asks for the same block again and the
peer sends it. -/
theorem exchange_never_ends (hno : ∀ dbs, NoReorg env u.scan dbs)
    (hoff : offTip (blockGetHeight env.host block) (dataChainGetHeight env u.height s) = true)
    {r : Bytes} (hr : t.blocks.lookup (blockComputeHash env.digest block) = some r)
    (hlong : sizeBlockHeader ≤ r.length) (hfit : r.length ≤ maxBlockSize)
    (hheader : (Mem.ofBytes r).slice 0 sizeBlockHeader = block.slice 0 sizeBlockHeader)
    {state : Dbs × Mem}
    (hrun : ReflTransGen (Exchange env peer u addr t resp) (s, block) state) :
    Bouncing s block state ∧ ∃ next, Exchange env peer u addr t resp state next := by
  have hbody : ∀ m : Mem, (readRecord m r).slice 0 sizeBlockHeader =
      block.slice 0 sizeBlockHeader := by
    intro m
    rw [readRecord, if_pos hfit]
    exact (header_load hlong).trans hheader
  have hlen := blockComputeHash_length env.digest block
  obtain ⟨size, hsize, hanswer⟩ := getdataBlocks_one peer addr resp hlen hr
  -- the block that the answer carries has the header of the first one
  have hnext : ((Mem.ofBytes (uitob (UInt32.ofNat size) ++
      (readRecord (resp.shift 4) r).slice 0 size)).shift 4).slice 0 sizeBlockHeader =
        block.slice 0 sizeBlockHeader := by
    have hslice : (Mem.ofBytes (uitob (UInt32.ofNat size) ++
        (readRecord (resp.shift 4) r).slice 0 size)).slice 4 sizeBlockHeader =
          ((readRecord (resp.shift 4) r).slice 0 size).take sizeBlockHeader :=
      Mem.slice_ofBytes_inside (by simp at hsize ⊢; omega)
    rw [Mem.slice_shift, hslice, Mem.slice_take _ _ _ _ hsize, hbody]
  have hstep : ∀ a b, Exchange env peer u addr t resp a b → Bouncing s block a →
      Bouncing s block b := by
    rintro _ _ ⟨hreply, hhandles, hsent⟩ hb
    rw [hb.reply hoff] at hreply
    cases hreply
    rw [hanswer] at hsent
    cases hsent
    rw [handleBlock_quiet (hno _), blockMsg_shift] at hhandles
    subst hhandles
    exact ⟨hb.filed hoff, hnext⟩
  have hbouncing := run_invariant hstep hrun ⟨rfl, rfl⟩
  obtain ⟨s', block'⟩ := state
  have hhandles : Handles env s' (.block u (blockMsg block'))
      (fileBlock env u s' ((blockMsg block').shift 4)) := (handleBlock_quiet (hno _) _).mpr rfl
  exact ⟨hbouncing, _, .round (hbouncing.reply hoff) hhandles hanswer⟩

/-- A node and a peer that both have `genesis` alone, and the node is sent it. -/
example : ∃ next, Exchange sampleEnv sampleEnv .zero 0 genesisNode (fun _ => 0)
    (genesisNode, genesis) next := by
  have hoff : offTip (blockGetHeight sampleEnv.host genesis)
      (dataChainGetHeight sampleEnv BlockMem.zero.height genesisNode) = true := by
    rw [zero_height_genesisNode]
    decide
  have hr : genesisNode.blocks.lookup (blockComputeHash sampleEnv.digest genesis) =
      some (blockRecord sampleEnv 0 genesis) := by
    rw [show blockComputeHash sampleEnv.digest genesis = genesisHash from genesisHash_eq]
    exact AList.lookup_insert _
  exact (exchange_never_ends (sampleEnv_noReorg _) hoff hr (by decide) (by decide)
    (header_ofBytes_slice genesis (Nat.le_refl 83)) .refl).2

end Livelock

/-! ## Relaying a transaction -/

section Relay

variable {B : Bdb} (env : Env B)

/-- The transaction that the `CTYPE_TX` branch puts together from a message. -/
def rebuiltTx (dest msg : Mem) : Except Fault (Mem × ℕ) :=
  let body := msg.shift ctypeTxPosTx
  let inCount := btous env.host (body.shift posTxInCount)
  let outCount := btous env.host (body.shift posTxOutCount)
  mTxGen env.gccVersion inCount outCount (btoui env.host (body.shift posTxLockTime))
    (body.shift posTxBody) (body.shift (posTxBody + inCount.toNat * sizeTxInput)) dest

/-- The size a `<tx>` message claims, as the host decodes its counts. -/
def claimedSize (o : ByteOrder) (msg : Mem) : ℕ := txGetSize o (msg.shift ctypeTxPosTx)

/-- The branch has stored one more entry, with the bytes of `t` and the hash of `t`. -/
def Relayed (t : Bytes) (s : Dbs) (result : Except Fault Dbs) : Prop :=
  ∃ e : MTx, e.data = t ∧ e.hash = env.digest t ∧
    result = .ok { s with mempool :=
      ⟨Function.update s.mempool.txs s.mempool.count (some e), s.mempool.count + 1⟩ }

variable {env} {version inCount outCount : UInt16} {lockTime : UInt32} {ins outs dest₀ data : Mem}
  {size : ℕ}

/-- Decoding twice is decoding not at all: the size of the rebuilt transaction is
that of the one that was sent. -/
theorem txGetSize_rebuilt {dest msg : Mem} {tx : Mem × ℕ}
    (h : GeneratedTx env.host inCount outCount (msg.shift ctypeTxPosTx) size)
    (hbuilt : rebuiltTx env dest msg = .ok tx) : txGetSize env.host tx.1 = size := by
  have hgen := generatedTx env.host hbuilt
  unfold txGetSize
  rw [hgen.inCount_eq, hgen.outCount_eq, h.inCount_eq, h.outCount_eq, ntohs_ntohs, ntohs_ntohs,
    h.size_eq]
  rfl

/-- The branch rebuilds the transaction unless its counts, as the host decodes them,
are too large. -/
theorem rebuiltTx_cases (dest : Mem) {msg : Mem}
    (h : GeneratedTx env.host inCount outCount (msg.shift ctypeTxPosTx) size) :
    (10 + 290 * (ntohs env.host inCount).toNat + 36 * (ntohs env.host outCount).toNat ≤ maxTxSize ∧
      ∃ tx, rebuiltTx env dest msg = .ok tx) ∨
    (maxTxSize < 10 + 290 * (ntohs env.host inCount).toNat + 36 * (ntohs env.host outCount).toNat ∧
      rebuiltTx env dest msg = .error (.fatal "Tx overflow")) := by
  unfold rebuiltTx mTxGen
  dsimp only
  rw [h.inCount_eq, h.outCount_eq]
  by_cases hbig : maxTxSize <
      10 + 290 * (ntohs env.host inCount).toNat + 36 * (ntohs env.host outCount).toNat
  · exact .inr ⟨hbig, if_pos hbig⟩
  · exact .inl ⟨Nat.not_lt.mp hbig, _, if_neg hbig⟩

/-- With room in the mempool the branch rebuilds the transaction and adds it. -/
theorem handleTx_room {s : Dbs} (hroom : s.mempool.count < env.maxMempoolSize) (dest : Mem)
    (u : EntryMem) (msg : Mem) :
    handleTx env dest u s msg = do
      let tx ← rebuiltTx env dest msg
      let mempool ← dataMempoolAdd env.host env.digest u s.mempool tx.1
      return { s with mempool := mempool } :=
  if_pos hroom

/-- **Relaying.** A transaction that `m_tx_gen` built arrives in a `<tx>` message, and
the branch has room for it and has not got it. The entry it stores has the bytes
and the hash of that transaction if and only if the counts as the host decodes
them are not too large, and the memory allocated for the entry shows the
transaction already and hashes to what it hashes to. -/
theorem relayed_iff {B : Bdb} (env : Env B) {version inCount outCount : UInt16} {lockTime : UInt32}
    {ins outs dest₀ data : Mem} {size : ℕ}
    (hgen : mTxGen version inCount outCount lockTime ins outs dest₀ = .ok (data, size))
    (s : Dbs) (dest : Mem) (u : EntryMem) {msg : Mem}
    (hmsg : msg.slice ctypeTxPosTx size = data.slice 0 size)
    (hroom : s.mempool.count < env.maxMempoolSize)
    (habsent : ∀ tx, rebuiltTx env dest msg = .ok tx →
      dataMempoolExists s.mempool (txComputeHash env.host env.digest tx.1) = .ok false) :
    Relayed env (data.slice 0 size) s (handleTx env dest u s msg) ↔
      10 + 290 * (ntohs env.host inCount).toNat + 36 * (ntohs env.host outCount).toNat ≤ maxTxSize ∧
      u.data.slice 0 size = data.slice 0 size ∧
      txComputeHash env.host env.digest u.data = env.digest (data.slice 0 size) := by
  have hbody : GeneratedTx env.host inCount outCount (msg.shift ctypeTxPosTx) size := by
    refine (generatedTx env.host hgen).of_slice ?_
    rw [Mem.slice_shift]
    exact hmsg
  rw [handleTx_room hroom]
  rcases rebuiltTx_cases dest hbody with ⟨hfit, tx, hbuilt⟩ | ⟨hbig, hbuilt⟩
  · have hstored := dataMempoolAdd_absent u (habsent tx hbuilt)
    have hsize := txGetSize_rebuilt hbody hbuilt
    rw [hbuilt]
    show Relayed env _ s (dataMempoolAdd env.host env.digest u s.mempool tx.1 >>=
      fun mempool => pure { s with mempool := mempool }) ↔ _
    rw [hstored]
    constructor
    · rintro ⟨e, hdata, hhash, hok⟩
      have hslots := congrArg (fun d : Dbs => d.mempool.txs s.mempool.count) (Except.ok.inj hok)
      simp only [Function.update_self, Option.some_inj] at hslots
      subst hslots
      rw [← hsize] at hdata ⊢
      exact ⟨hfit, hdata, hhash.trans (by rw [hsize])⟩
    · rintro ⟨-, hdata, hhash⟩
      refine ⟨mempoolEntry env.host env.digest u tx.1, ?_, hhash, rfl⟩
      show u.data.slice 0 (txGetSize env.host tx.1) = _
      rw [hsize, hdata]
  · rw [hbuilt]
    constructor
    · rintro ⟨e, -, -, hok⟩
      cases hok
    · rintro ⟨hfit, -⟩
      exact absurd hfit (Nat.not_le.mpr hbig)

end Relay

/-- A transaction without inputs and outputs: ten zero bytes. -/
def emptyTx : Mem := rTxGen 0 0 0 0 (fun _ => 0) (fun _ => 0) fun _ => 0

theorem mTxGen_emptyTx :
    mTxGen 0 0 0 0 (fun _ => 0) (fun _ => 0) (fun _ => 0) = .ok (emptyTx, 10) := rfl

/-- Relayed through memory that happens to be zero. -/
theorem relayed_emptyTx :
    Relayed sampleEnv (emptyTx.slice 0 10) emptyNode
      (handleTx sampleEnv (fun _ => 0) ⟨fun _ => 0, []⟩ emptyNode fun _ => 0) :=
  (relayed_iff sampleEnv mTxGen_emptyTx emptyNode (fun _ => 0) ⟨fun _ => 0, []⟩ (by decide)
    (by decide) fun _ _ => rfl).mpr ⟨by decide, by decide, congrArg sha256 (by decide)⟩

/-- Relayed through memory that holds something else, it is something else. -/
theorem emptyTx_relayed_as_ones :
    ¬ ∀ (version inCount outCount : UInt16) (lockTime : UInt32) (ins outs dest₀ data : Mem)
      (size : ℕ) (s : Dbs) (dest : Mem) (u : EntryMem) (msg : Mem),
      mTxGen version inCount outCount lockTime ins outs dest₀ = .ok (data, size) →
      msg.slice ctypeTxPosTx size = data.slice 0 size →
      s.mempool.count < sampleEnv.maxMempoolSize →
      (∀ tx, rebuiltTx sampleEnv dest msg = .ok tx →
        dataMempoolExists s.mempool (txComputeHash sampleEnv.host sampleEnv.digest tx.1) =
          .ok false) →
      Relayed sampleEnv (data.slice 0 size) s (handleTx sampleEnv dest u s msg) := by
  intro hall
  obtain ⟨e, hdata, -, hok⟩ := hall 0 0 0 0 _ _ _ emptyTx 10 emptyNode (fun _ => 0)
    ⟨fun _ => 1, []⟩ (fun _ => 0) mTxGen_emptyTx (by decide) (by decide) fun _ _ => rfl
  have hslot := congrArg (fun d : Dbs => (d.mempool.txs 0).map MTx.data) (Except.ok.inj hok)
  have hones : some (Mem.slice (fun _ => 1) 0 10) = some e.data := hslot
  rw [hdata] at hones
  exact absurd hones (by decide)

end Freecoin
