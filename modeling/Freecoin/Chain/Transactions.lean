import Freecoin.Network.Handle

/-!
# Transactions and the chain

Two properties of whole runs of the node. The index of transactions is to
agree with the chain, and a transaction on the chain is to be out of the
mempool.

Both fail. `data_blocks_add` indexes the transactions of every accepted block
when it arrives, on the chain or not, while the chain itself never grows.
`data_mempool_add` hashes memory that was never written, so an entry can
carry any hash, that of a confirmed transaction included. The two run
theorems say which messages keep the properties.
-/

namespace Freecoin

open Lib Relation

variable (env : Env .passed)

/-! ## The index -/

/-- The index holds exactly the transactions of the chain, each under a chain
block that contains it. -/
structure TxIndexAgrees (dbs : Dbs) : Prop where
  exists_iff : ∀ t : Bytes, t.length = 32 →
    (dataTxsExists .passed dbs t = true ↔ Confirmed env dbs t)
  block : ∀ t x, dbs.txs.lookup t = some x →
    ∃ r, OnChain env dbs x ∧ dbs.blocks.lookup x = some r ∧ t ∈ recordTxs env r

/-- A block message that brings no transaction into the node: the block shows
none if it is accepted, and neither does the buffer of a reorganisation that
the message may start. Other messages do not touch the index. -/
def BringsNoTxs (s : Dbs) : Msg → Prop
  | .block u msg =>
      (env.validBlock (msg.shift 4) = true → blockGetTxCount env.host (msg.shift 4) = 0) ∧
      (NoReorg env u.scan (fileBlock env u s (msg.shift 4)) ∨
        blockGetTxCount env.host u.scan.revert.currBlock = 0)
  | .tx _ _ _ => True

/-- Nothing indexed, nothing on the chain, nothing to index in the stored blocks. -/
structure NothingIndexed (s : Dbs) : Prop where
  txs : ∀ t, s.txs.lookup t = none
  chain : ∀ h x, ¬ ChainHas env s h x
  stored : ∀ x r, s.blocks.lookup x = some r →
    83 ≤ r.length ∧ blockGetTxCount env.host (Mem.ofBytes r) = 0

variable {env}

theorem NothingIndexed.agrees {s : Dbs} (h : NothingIndexed env s) : TxIndexAgrees env s := by
  constructor
  · intro t ht
    rw [dataTxsExists_passed s ht, h.txs t]
    refine ⟨fun hfalse => absurd hfalse (by decide), ?_⟩
    rintro ⟨x, r, ⟨height, hx⟩, -, -⟩
    exact absurd hx (h.chain height x)
  · intro t x ht
    rw [h.txs t] at ht
    cases ht

theorem nothingIndexed_emptyNode : NothingIndexed env emptyNode := by
  refine ⟨fun t => rfl, ?_, fun x r hr => nomatch hr⟩
  intro h x hx
  exact nomatch ((chainHas_iff env).mp hx).1

theorem blockTxHashes_eq_nil {o : ByteOrder} {H : Digest} {block : Mem}
    (h : blockGetTxCount o block = 0) : blockTxHashes o H block = [] := by
  rw [blockTxHashes, blockTxs, h]
  rfl

/-- The stored blocks, as a block buffer can show them, have no transactions. -/
theorem NothingIndexed.buffer {u : RevertMem} {blocks : Db}
    (hstored : ∀ x r, blocks.lookup x = some r →
      83 ≤ r.length ∧ blockGetTxCount env.host (Mem.ofBytes r) = 0)
    (huninit : blockGetTxCount env.host u.currBlock = 0) {block : Mem}
    (h : BlockBuffer u blocks block) : blockGetTxCount env.host block = 0 := by
  induction h with
  | uninit => exact huninit
  | read _ hr _ =>
      obtain ⟨hlen, hcount⟩ := hstored _ _ hr
      exact (blockGetTxCount_of_header_eq (header_load hlen) env.host).trans hcount

/-- Storing a block without transactions. -/
theorem NothingIndexed.store {s : Dbs} (h : NothingIndexed env s) (u : BlockMem) {block : Mem}
    (hcount : env.validBlock block = true → blockGetTxCount env.host block = 0) :
    NothingIndexed env (storeBlock env u s block) := by
  cases hvalid : env.validBlock block with
  | false => rwa [storeBlock_of_invalid u s hvalid]
  | true =>
      rw [storeBlock_of_valid u s hvalid, blockTxHashes_eq_nil (hcount hvalid)]
      refine ⟨h.txs, h.chain, ?_⟩
      intro x r hr
      by_cases hx : x = blockComputeHash env.digest block
      · subst hx
        rw [AList.lookup_insert] at hr
        cases hr
        have hsize := header_le_blockComputeSize env.host u.addr block
        refine ⟨by simpa [blockRecord] using hsize, ?_⟩
        exact (blockGetTxCount_of_header_eq (header_ofBytes_slice block hsize) env.host).trans
          (hcount hvalid)
      · rw [AList.lookup_insert_ne hx] at hr
        exact h.stored x r hr

theorem NothingIndexed.congr {s s' : Dbs} (h : NothingIndexed env s) (htxs : s'.txs = s.txs)
    (hblocks : s'.blocks = s.blocks) (hchain : dataChainGet env s' = dataChainGet env s) :
    NothingIndexed env s' := by
  refine ⟨htxs ▸ h.txs, ?_, hblocks ▸ h.stored⟩
  intro height x hx
  exact h.chain height x ((ChainHas.congr hchain).mp hx)

/-- Storing and filing a block without transactions. -/
theorem NothingIndexed.file {s : Dbs} (h : NothingIndexed env s) (u : BlockMem) {block : Mem}
    (hcount : env.validBlock block = true → blockGetTxCount env.host block = 0) :
    NothingIndexed env (fileBlock env u s block) := by
  have hstore := h.store u hcount
  refine hstore.congr (fileBlock_txs env u s block) (fileBlock_blocks env u s block) ?_
  rw [fileBlock_chainGet, storeBlock_chainGet]

/-- An edit of a reorganisation finds no transaction to index. -/
theorem NothingIndexed.edit {u : RevertMem} {t t' : Dbs}
    (huninit : blockGetTxCount env.host u.currBlock = 0)
    (hedit : RevertEdit env u t.blocks t t') (h : NothingIndexed env t) :
    NothingIndexed env t' := by
  have hblocks := hedit.blocks_eq
  have hchain := hedit.chainGet_eq
  cases hedit with
  | txsDel x =>
      refine ⟨?_, h.chain, h.stored⟩
      intro y
      by_cases hy : y = x
      · rw [hy]
        exact AList.lookup_erase x t.txs
      · rw [AList.lookup_erase_ne hy]
        exact h.txs y
  | txsAdd hbuf ht x =>
      have hnone := blockTxHashes_eq_nil (H := env.digest)
        (NothingIndexed.buffer h.stored huninit hbuf)
      rw [hnone] at ht
      exact absurd ht List.not_mem_nil
  | chainSafeSet k hbuf =>
      refine h.congr ?_ hblocks hchain
      obtain ⟨chain, hset⟩ := dataChainSafeSet_frame env (u.chainHeader k) t _
      rw [hset]
  | _ => exact h.congr rfl hblocks hchain

/-- One message that brings no transaction. -/
theorem NothingIndexed.step {s s' : Dbs} {m : Msg} (h : NothingIndexed env s)
    (hm : BringsNoTxs env s m) (hstep : Handles env s m s') : NothingIndexed env s' := by
  cases m with
  | block u msg =>
      obtain ⟨hcount, hreorg⟩ := hm
      refine hstep.block_rule (h.file u hcount) ?_
      intro hstarts t t' hblocks hedit ht
      have huninit := hreorg.resolve_left hstarts
      rw [← hblocks] at hedit
      exact ht.edit huninit hedit
  | tx dest u msg =>
      rcases handleTx_cases hstep with rfl | ⟨tx, p, _, rfl⟩
      · exact h
      · exact ⟨h.txs, h.chain, h.stored⟩

/-- **The index over runs.** From an empty node, as long as no message brings a
transaction, the index agrees with the chain. -/
theorem txIndex_agrees_of_run (env : Env .passed) (s : Dbs)
    (hrun : ReflTransGen (Guarded (Handles env) (BringsNoTxs env)) emptyNode s) :
    TxIndexAgrees env s := by
  refine (run_invariant ?_ hrun nothingIndexed_emptyNode).agrees
  rintro t t' ⟨m, hm, hstep⟩ ht
  exact ht.step hm hstep

/-- A block of zeros, which shows no transactions, is such a message. -/
theorem zeroBlock_run :
    ReflTransGen (Guarded (Handles sampleEnv) (BringsNoTxs sampleEnv)) emptyNode
      (fileBlock sampleEnv .zero emptyNode fun _ => 0) := by
  refine .single ⟨.block .zero (blockMsg fun _ => 0), ?_, sampleEnv_handles _ _ _⟩
  refine ⟨?_, .inl (sampleEnv_noReorg _ _)⟩
  rw [blockMsg_shift]
  decide

theorem txIndex_agrees_zeroBlock :
    ReflTransGen (Guarded (Handles sampleEnv) (BringsNoTxs sampleEnv)) emptyNode
      (fileBlock sampleEnv .zero emptyNode fun _ => 0) ∧
    TxIndexAgrees sampleEnv (fileBlock sampleEnv .zero emptyNode fun _ => 0) :=
  ⟨zeroBlock_run, txIndex_agrees_of_run _ _ zeroBlock_run⟩

/-- A block of zeros but for its count of one transaction, which is ten zeros. -/
def oneTxBlock : Mem := fun i => if i = 79 then 1 else 0

/-- The first accepted block with a transaction is indexed and not on the chain. -/
theorem txIndex_disagrees_oneTxBlock :
    ¬ ∀ (env : Env .passed) (s : Dbs),
      ReflTransGen (fun t t' => ∃ u msg, Handles env t (.block u msg) t') emptyNode s →
        TxIndexAgrees env s := by
  intro hall
  have hagrees := hall sampleEnv (fileBlock sampleEnv .zero emptyNode oneTxBlock)
    (.single ⟨.zero, _, sampleEnv_handles _ _ _⟩)
  let t := txComputeHash sampleEnv.host sampleEnv.digest (oneTxBlock.shift 83)
  have hlen : t.length = 32 := txComputeHash_length ..
  have hmem : t ∈ blockTxHashes sampleEnv.host sampleEnv.digest oneTxBlock := by
    have hcount : (blockGetTxCount sampleEnv.host oneTxBlock).toNat = 1 := by decide
    rw [blockTxHashes, blockTxs, hcount]
    exact List.mem_cons_self ..
  have hindexed :
      dataTxsExists .passed (fileBlock sampleEnv .zero emptyNode oneTxBlock) t = true := by
    rw [dataTxsExists_passed _ hlen, fileBlock_txs, storeBlock_of_valid _ _ rfl]
    simp only
    rw [indexTxs_lookup, if_pos hmem]
    rfl
  obtain ⟨x, r, ⟨h, hx⟩, -, -⟩ := (hagrees.exists_iff t hlen).mp hindexed
  rw [ChainHas.congr (fileBlock_chainGet _ _ _ _)] at hx
  exact nothingIndexed_emptyNode.chain h x hx

/-! ## The mempool -/

variable (env)

/-- No transaction of the chain is in the mempool. -/
def MempoolDisjoint (dbs : Dbs) : Prop :=
  ∀ i < dbs.mempool.count, ∀ tx, dbs.mempool.txs i = some tx → ¬ Confirmed env dbs tx.hash

/-- A message that puts no confirmed transaction into the mempool and confirms
none that is there: the memory of a new entry does not hash to a confirmed
transaction, and an accepted block with a hash that is already on the chain
does not contain the transaction of an entry. -/
def KeepsDisjoint (s : Dbs) : Msg → Prop
  | .block u msg =>
      (env.validBlock (msg.shift 4) = true →
        OnChain env s (blockComputeHash env.digest (msg.shift 4)) →
        ∀ i tx, s.mempool.txs i = some tx →
          tx.hash ∉ recordTxs env (blockRecord env u.addr (msg.shift 4))) ∧
      (NoReorg env u.scan (fileBlock env u s (msg.shift 4)) ∨
        ∀ i j, ¬ Confirmed env (storeBlock env u s (msg.shift 4))
          (txComputeHash env.host env.digest (u.scan.revert.entry i j).data))
  | .tx _ u _ => ¬ Confirmed env s (txComputeHash env.host env.digest u.data)

/-- The invariant behind `MempoolDisjoint`. It covers the slots past the last
entry as well, because a deletion brings them back. -/
def SlotsDisjoint (s : Dbs) : Prop :=
  ∀ i tx, s.mempool.txs i = some tx → ¬ Confirmed env s tx.hash

variable {env}

theorem SlotsDisjoint.disjoint {s : Dbs} (h : SlotsDisjoint env s) : MempoolDisjoint env s :=
  fun i _ tx htx => h i tx htx

theorem SlotsDisjoint.congr {s s' : Dbs} (h : SlotsDisjoint env s)
    (hmempool : s'.mempool = s.mempool) (hblocks : s'.blocks = s.blocks)
    (hchain : dataChainGet env s' = dataChainGet env s) : SlotsDisjoint env s' := by
  intro i tx htx
  rw [Confirmed.congr hblocks hchain]
  exact h i tx (hmempool ▸ htx)

/-- A new entry shows the hash of its own memory. -/
theorem SlotsDisjoint.add {s : Dbs} (h : SlotsDisjoint env s) {u : EntryMem} {p : Mempool}
    {tx : Mem} (hu : ¬ Confirmed env s (txComputeHash env.host env.digest u.data))
    (hadd : dataMempoolAdd env.host env.digest u s.mempool tx = .ok p) :
    SlotsDisjoint env { s with mempool := p } := by
  intro i e he
  rcases dataMempoolAdd_slot hadd he with hold | rfl
  · exact h i e hold
  · exact hu

theorem SlotsDisjoint.del {s : Dbs} (h : SlotsDisjoint env s) {t : Bytes} {r : Option MTx}
    {p : Mempool} (hdel : dataMempoolDel s.mempool t = .ok (r, p)) :
    SlotsDisjoint env { s with mempool := p } := by
  intro i e he
  obtain ⟨j, hj⟩ := dataMempoolDel_slot hdel he
  exact h j e hj

theorem SlotsDisjoint.edit {u : RevertMem} {blocks : Db} {t t' : Dbs}
    (hu : ∀ i j, ¬ Confirmed env t (txComputeHash env.host env.digest (u.entry i j).data))
    (hedit : RevertEdit env u blocks t t') (h : SlotsDisjoint env t) : SlotsDisjoint env t' := by
  have hblocks := hedit.blocks_eq
  have hchain := hedit.chainGet_eq
  cases hedit with
  | mempoolAdd i j tx hadd => exact h.add (hu i j) hadd
  | mempoolDel x hdel => exact h.del hdel
  | chainSafeSet k hbuf =>
      refine h.congr ?_ hblocks hchain
      obtain ⟨chain, hset⟩ := dataChainSafeSet_frame env (u.chainHeader k) t _
      rw [hset]
  | _ => exact h.congr rfl hblocks hchain

/-- Storing a block can confirm the transactions of its own record only. -/
theorem confirmed_storeBlock {u : BlockMem} {s : Dbs} {block : Mem} {t : Bytes}
    (h : Confirmed env (storeBlock env u s block) t) :
    Confirmed env s t ∨ (env.validBlock block = true ∧
      OnChain env s (blockComputeHash env.digest block) ∧
      t ∈ recordTxs env (blockRecord env u.addr block)) := by
  obtain ⟨x, r, hx, hr, ht⟩ := h
  rw [OnChain.congr (storeBlock_chainGet env u s block)] at hx
  cases hvalid : env.validBlock block with
  | false =>
      rw [storeBlock_of_invalid u s hvalid] at hr
      exact .inl ⟨x, r, hx, hr, ht⟩
  | true =>
      rw [storeBlock_of_valid u s hvalid] at hr
      by_cases heq : x = blockComputeHash env.digest block
      · subst heq
        rw [AList.lookup_insert] at hr
        cases hr
        exact .inr ⟨rfl, hx, ht⟩
      · rw [AList.lookup_insert_ne heq] at hr
        exact .inl ⟨x, r, hx, hr, ht⟩

theorem storeBlock_mempool (u : BlockMem) (s : Dbs) (block : Mem) :
    (storeBlock env u s block).mempool = s.mempool := by
  cases h : env.validBlock block with
  | true => rw [storeBlock_of_valid u s h]
  | false => rw [storeBlock_of_invalid u s h]

theorem SlotsDisjoint.step {s s' : Dbs} {m : Msg} (h : SlotsDisjoint env s)
    (hm : KeepsDisjoint env s m) (hstep : Handles env s m s') : SlotsDisjoint env s' := by
  cases m with
  | block u msg =>
      obtain ⟨hstored, hreorg⟩ := hm
      have hstore : SlotsDisjoint env (storeBlock env u s (msg.shift 4)) := by
        intro i tx htx hconf
        rw [storeBlock_mempool] at htx
        rcases confirmed_storeBlock hconf with hold | ⟨hvalid, hon, hmem⟩
        · exact h i tx htx hold
        · exact hstored hvalid hon i tx htx hmem
      have hfile : SlotsDisjoint env (fileBlock env u s (msg.shift 4)) :=
        hstore.congr (fileBlock_mempool ..) (fileBlock_blocks ..)
          (by rw [fileBlock_chainGet, storeBlock_chainGet])
      -- the chain reads the same throughout, so `Confirmed` does not move either
      refine (hstep.block_rule (P := fun t => SlotsDisjoint env t ∧
        dataChainGet env t = dataChainGet env s) ⟨hfile, fileBlock_chainGet ..⟩ ?_).1
      rintro hstarts t t' hblocks hedit ⟨ht, hchain⟩
      refine ⟨ht.edit (fun i j hconf => ?_) hedit, hedit.chainGet_eq.trans hchain⟩
      refine hreorg.resolve_left hstarts i j ((Confirmed.congr hblocks ?_).mp hconf)
      rw [hchain, storeBlock_chainGet]
  | tx dest u msg =>
      rcases handleTx_cases hstep with rfl | ⟨tx, p, hadd, rfl⟩
      · exact h
      · exact h.add hm hadd

/-- **The mempool over runs.** From any databases and an empty mempool, through any
interleaving of messages that keep the two apart, no transaction of the chain
is in the mempool. -/
theorem mempool_disjoint_of_run (env : Env .passed) (s s' : Dbs) (hinit : s.mempool = mempoolInit)
    (hrun : ReflTransGen (Guarded (Handles env) (KeepsDisjoint env)) s s') :
    MempoolDisjoint env s' := by
  have hstart : SlotsDisjoint env s := by
    intro i tx htx
    rw [hinit] at htx
    cases htx
  refine (run_invariant ?_ hrun hstart).disjoint
  rintro t t' ⟨m, hm, hstep⟩ ht
  exact ht.step hm hstep

/-- A `<tx>` of zeros, for which zeroed memory is allocated. -/
theorem zeroTx_handles (s : Dbs) (hinit : s.mempool = mempoolInit) :
    Handles sampleEnv s (.tx (fun _ => 0) ⟨fun _ => 0, []⟩ fun _ => 0)
      { s with mempool := ⟨Function.update (fun _ => none) 0
        (some (mempoolEntry .little sha256 ⟨fun _ => 0, []⟩
          (rTxGen 0 0 0 0 (fun _ => 0) (fun _ => 0) fun _ => 0))), 1⟩ } := by
  obtain ⟨blocks, chain, limbo, txs, mempool⟩ := s
  cases hinit
  rfl

theorem zeroTx_run :
    ∃ s', s'.mempool.count = 1 ∧
      ReflTransGen (Guarded (Handles sampleEnv) (KeepsDisjoint sampleEnv)) emptyNode s' := by
  refine ⟨_, rfl, .single ⟨_, ?_, zeroTx_handles emptyNode rfl⟩⟩
  rintro ⟨x, r, ⟨h, hx⟩, -, -⟩
  exact nothingIndexed_emptyNode.chain h x hx

/-- One transaction arrives at an empty node. -/
theorem mempool_disjoint_zeroTx :
    emptyNode.mempool = mempoolInit ∧ ∃ s', s'.mempool.count = 1 ∧
      ReflTransGen (Guarded (Handles sampleEnv) (KeepsDisjoint sampleEnv)) emptyNode s' ∧
      MempoolDisjoint sampleEnv s' := by
  obtain ⟨s', hcount, hrun⟩ := zeroTx_run
  exact ⟨rfl, s', hcount, hrun, mempool_disjoint_of_run _ _ _ rfl hrun⟩

/-- A node whose chain is one block, `oneTxBlock`. -/
def oneTxNode : Dbs where
  blocks := AList.insert (recordHash sampleEnv (oneTxBlock.slice 0 93)) (oneTxBlock.slice 0 93) ∅
  chain := AList.insert (hostBytes32 .little 0) (recordHash sampleEnv (oneTxBlock.slice 0 93)) ∅
  limbo := ∅
  txs := ∅
  mempool := mempoolInit

theorem oneTxNode_confirmed :
    Confirmed sampleEnv oneTxNode (txComputeHash .little sha256 fun _ => 0) := by
  refine ⟨recordHash sampleEnv (oneTxBlock.slice 0 93), oneTxBlock.slice 0 93, ⟨0, ?_⟩, ?_, ?_⟩
  · exact (chainHas_iff sampleEnv).mpr ⟨AList.lookup_insert _, sha256.length _⟩
  · exact AList.lookup_insert _
  · refine List.mem_map.mpr ⟨83, by decide, ?_⟩
    have hbytes : txBytes .little ((Mem.ofBytes (oneTxBlock.slice 0 93)).shift 83) =
        txBytes .little fun _ => 0 := by decide
    exact congrArg sha256 hbytes

/-- Any transaction can bring the one transaction of the chain into the mempool:
its entry is made of memory that was never written. -/
theorem mempool_not_disjoint_zeroTx :
    ¬ ∀ (env : Env .passed) (s s' : Dbs), s.mempool = mempoolInit →
      ReflTransGen (fun t t' => ∃ m, Handles env t m t') s s' → MempoolDisjoint env s' := by
  intro hall
  have hdisjoint := hall sampleEnv oneTxNode _ rfl (.single ⟨_, zeroTx_handles oneTxNode rfl⟩)
  exact hdisjoint 0 (by decide) _ rfl ((Confirmed.congr rfl rfl).mpr oneTxNode_confirmed)

end Freecoin
