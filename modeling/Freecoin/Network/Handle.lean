import Freecoin.Data.Scan
import Freecoin.Data.View

/-!
# network.c: the `<block>` and `<tx>` branches of `handle_connection`

A `<block>` is stored if `valid_block` accepts it, filed in limbo or passed to
`data_chain_safe_set` by its height, and then the limbo is scanned. Neither
the filing nor the scan asks whether the block was accepted. Names without a
definition are read as their nearest relative: `data_limbo_add` as
`data_limbo_safe_add`, `prev_hash` as `POS_BLOCK_PREV_HASH`,
`CTYPE_TX_POS_BODY` as `CTYPE_TX_POS_TX`.
-/

namespace Freecoin

open Lib Relation

/-! ## Filing a block by its height -/

/-- A call that files a block. -/
inductive Filing : Type where
  | limbo
  | chain
deriving DecidableEq

/-- `height` is not one above the chain, as the branch tests it. -/
def offTip (height currHeight : UInt32) : Bool :=
  height ≤ currHeight || (2 < height && currHeight ≤ height - 2)

/-- The calls that file a block of the given height, in order; `linked` is the
result of comparing its `prev_hash` with the hash of the tip. -/
def blockFilings (height currHeight : UInt32) (linked : Bool) : List Filing :=
  if offTip height currHeight then [.limbo]
  else if height - 1 = currHeight then
    if linked then [.chain] else [.limbo]
  else []

/-- The README's rule over the integers: limbo at or below the tip, two or more
above it, or one above it with another parent; the chain one above it with
the tip as parent; one filing for each block. -/
structure FiledAsDocumented (height currHeight : UInt32) (linked : Bool)
    (filings : List Filing) : Prop where
  limbo : .limbo ∈ filings ↔ height.toNat ≤ currHeight.toNat ∨
    currHeight.toNat + 2 ≤ height.toNat ∨ (height.toNat = currHeight.toNat + 1 ∧ linked = false)
  chain : .chain ∈ filings ↔ height.toNat = currHeight.toNat + 1 ∧ linked = true
  once : filings.length = 1

theorem offTip_iff (h c : UInt32) :
    offTip h c = true ↔
      h.toNat ≤ c.toNat ∨ (2 < h.toNat ∧ c.toNat + 2 ≤ h.toNat) := by
  have hsub : 2 < h.toNat → (h - 2).toNat = h.toNat - 2 := fun h2 =>
    UInt32.toNat_sub_of_le _ _ (UInt32.le_iff_toNat_le.mpr (Nat.le_of_lt h2))
  have h2 : (2 : UInt32).toNat = 2 := rfl
  simp only [offTip, Bool.or_eq_true, Bool.and_eq_true, decide_eq_true_eq, UInt32.le_iff_toNat_le,
    UInt32.lt_iff_toNat_lt, h2]
  constructor
  · rintro (hle | ⟨hgt, hge⟩)
    · exact .inl hle
    · rw [hsub hgt] at hge
      exact .inr ⟨hgt, by omega⟩
  · rintro (hle | ⟨hgt, hge⟩)
    · exact .inl hle
    · rw [hsub hgt]
      exact .inr ⟨hgt, by omega⟩

theorem pred_eq_iff {h c : UInt32} (hpos : 0 < h.toNat) : h - 1 = c ↔ h.toNat = c.toNat + 1 := by
  have hsub : (h - 1).toNat = h.toNat - 1 :=
    UInt32.toNat_sub_of_le _ _ (UInt32.le_iff_toNat_le.mpr hpos)
  rw [← UInt32.toNat_inj, hsub]
  omega

/-- The tests cover every pair of heights but one: a block of height 2 on a chain
of height 0 is dropped. -/
theorem blockFilings_documented (h c : UInt32) (linked : Bool) :
    FiledAsDocumented h c linked (blockFilings h c linked) ↔ ¬ (h = 2 ∧ c = 0) := by
  constructor
  · rintro hfiled ⟨rfl, rfl⟩
    exact absurd hfiled.once (by cases linked <;> decide)
  · intro hne
    have hne' : ¬ (h.toNat = 2 ∧ c.toNat = 0) := fun ⟨hh, hc⟩ =>
      hne ⟨UInt32.toNat_inj.mp hh, UInt32.toNat_inj.mp hc⟩
    unfold blockFilings
    by_cases hoff : offTip h c = true
    · have hoff' := (offTip_iff h c).mp hoff
      rw [if_pos hoff]
      refine ⟨?_, ?_, rfl⟩
      · simp only [List.mem_singleton, true_iff]
        omega
      · simp only [List.mem_singleton, reduceCtorEq, false_iff, not_and]
        omega
    · have hon := mt (offTip_iff h c).mpr hoff
      have hnext : h.toNat = c.toNat + 1 := by omega
      rw [if_neg hoff, if_pos ((pred_eq_iff (by omega)).mpr hnext)]
      cases linked with
      | true => exact ⟨by simp; omega, by simp [hnext], rfl⟩
      | false => exact ⟨by simp [hnext], by simp, rfl⟩

/-- A block of height 0 is never above the chain. -/
theorem blockFilings_zero (c : UInt32) (linked : Bool) : blockFilings 0 c linked = [.limbo] :=
  if_pos ((offTip_iff 0 c).mpr (.inl (Nat.zero_le _)))

/-! ## The `<block>` branch -/

/-- The memory that handling a `<block>` is handed uninitialised; see
`blockComputeSize` for `addr`. -/
structure BlockMem : Type where
  height : HeightMem
  currHash : Mem
  addr : UInt8
  limboBuffer : Mem
  chainHeader : Mem
  scan : ScanMem

/-- Memory that happens to be zero. -/
def BlockMem.zero : BlockMem where
  height := ⟨0, fun _ => 0⟩
  currHash := fun _ => 0
  addr := 0
  limboBuffer := fun _ => 0
  chainHeader := fun _ => 0
  scan := ⟨⟨0, fun _ => 0⟩, fun _ => 0, fun _ => 0, .zero⟩

variable {B : Bdb} (env : Env B)

/-- `memcmp(&block[prev_hash], curr_hash, SIZE_SHA256) == 0`. -/
def blockLinked (u : BlockMem) (dbs : Dbs) (block : Mem) : Bool :=
  let currHeight := dataChainGetHeight env u.height dbs
  let currHash := (dataChainGet env dbs currHeight u.currHash).2
  block.slice posBlockPrevHash sizeSha256 == currHash.slice 0 sizeSha256

/-- How the block is filed. -/
def receivedFilings (u : BlockMem) (dbs : Dbs) (block : Mem) : List Filing :=
  blockFilings (blockGetHeight env.host block) (dataChainGetHeight env u.height dbs)
    (blockLinked env u dbs block)

/-- **Filing.** The branch files a block once and where the rule says, unless the
block has height 2 and the chain height 0. -/
theorem receivedFilings_documented_iff (env : Env B) (u : BlockMem) (dbs : Dbs) (block : Mem) :
    FiledAsDocumented (blockGetHeight env.host block) (dataChainGetHeight env u.height dbs)
      (blockLinked env u dbs block) (receivedFilings env u dbs block) ↔
    ¬ (blockGetHeight env.host block = 2 ∧ dataChainGetHeight env u.height dbs = 0) :=
  blockFilings_documented _ _ _

/-- A block of height 2 that reaches a node with `genesis` alone is neither put in
limbo nor on the chain. -/
theorem block_two_above_genesis_dropped :
    ¬ ∀ (u : BlockMem) (dbs : Dbs) (block : Mem),
      FiledAsDocumented (blockGetHeight sampleEnv.host block)
        (dataChainGetHeight sampleEnv u.height dbs) (blockLinked sampleEnv u dbs block)
        (receivedFilings sampleEnv u dbs block) := by
  intro hall
  have hfiled := hall .zero genesisNode (Mem.ofBytes (List.replicate 6 0 ++ [2, 0, 0, 0]))
  have hheight : blockGetHeight sampleEnv.host
      (Mem.ofBytes (List.replicate 6 0 ++ [2, 0, 0, 0])) = 2 := by decide
  exact (blockFilings_documented _ _ _).mp hfiled ⟨hheight, genesisNode_height⟩

/-- `if (valid_block(block)) data_blocks_add(dbs, block)`. -/
def storeBlock (u : BlockMem) (dbs : Dbs) (block : Mem) : Dbs :=
  if env.validBlock block then dataBlocksAdd env u.addr dbs block else dbs

/-- One filing call. -/
def applyFiling (u : BlockMem) (block : Mem) (dbs : Dbs) : Filing → Dbs
  | .limbo => dataLimboSafeAdd env u.limboBuffer dbs block
  | .chain => dataChainSafeSet env u.chainHeader dbs block

/-- The databases when the scan starts. -/
def fileBlock (u : BlockMem) (dbs : Dbs) (block : Mem) : Dbs :=
  (receivedFilings env u dbs block).foldl (applyFiling env u block) (storeBlock env u dbs block)

theorem applyFiling_blocks (u : BlockMem) (block : Mem) (dbs : Dbs) (f : Filing) :
    (applyFiling env u block dbs f).blocks = dbs.blocks := by
  cases f with
  | limbo => rfl
  | chain =>
      unfold applyFiling dataChainSafeSet
      dsimp only
      split <;> rfl

/-- Filing does not touch the blocks. -/
theorem fileBlock_blocks (u : BlockMem) (s : Dbs) (block : Mem) :
    (fileBlock env u s block).blocks = (storeBlock env u s block).blocks := by
  unfold fileBlock
  generalize storeBlock env u s block = dbs
  induction receivedFilings env u s block generalizing dbs with
  | nil => rfl
  | cons f rest ih => exact (ih _).trans (applyFiling_blocks env u block dbs f)

/-- The `<getdata>` that goes back to the peer. It asks for the block that has
just arrived. -/
def blockReply (u : BlockMem) (dbs : Dbs) (block : Mem) : List Sent :=
  if offTip (blockGetHeight env.host block) (dataChainGetHeight env u.height dbs) then
    [.toPeer ctypeGetdata ([dtypeBlock, 1] ++ blockComputeHash env.digest block)]
  else []

/-- The `CTYPE_BLOCK` branch: the databases and what was sent. -/
def handleBlock (u : BlockMem) (fuel : ℕ) (dbs : Dbs) (msg : Mem) :
    Except Fault (Dbs × List Sent) := do
  let block := msg.shift ctypeBlockPosBlock
  let scanned ← dataLimboScan env u.scan fuel (fileBlock env u dbs block)
  return (scanned.1, blockReply env u dbs block ++ scanned.2)

/-! ## The `<tx>` branch -/

/-- The `CTYPE_TX` branch; `dest` is what `malloc` returned in `m_tx_gen`. -/
def handleTx (dest : Mem) (u : EntryMem) (dbs : Dbs) (msg : Mem) : Except Fault Dbs :=
  if dbs.mempool.count < env.maxMempoolSize then do
    let body := msg.shift ctypeTxPosTx
    let inCount := btous env.host (body.shift posTxInCount)
    let outCount := btous env.host (body.shift posTxOutCount)
    let lockTime := btoui env.host (body.shift posTxLockTime)
    let tx ← mTxGen env.gccVersion inCount outCount lockTime (body.shift posTxBody)
      (body.shift (posTxBody + inCount.toNat * sizeTxInput)) dest
    let mempool ← dataMempoolAdd env.host env.digest u dbs.mempool tx.1
    return { dbs with mempool := mempool }
  else .ok dbs

/-! ## Messages as steps -/

/-- A received message, with the memory its handling is handed uninitialised. -/
inductive Msg : Type where
  | block (u : BlockMem) (msg : Mem)
  | tx (dest : Mem) (u : EntryMem) (msg : Mem)

/-- Handling a message to its end. -/
def Handles (s : Dbs) (m : Msg) (s' : Dbs) : Prop :=
  match m with
  | .block u msg => ∃ fuel sent, handleBlock env u fuel s msg = .ok (s', sent)
  | .tx dest u msg => handleTx env dest u s msg = .ok s'

section Passed

variable {env : Env .passed} {u : BlockMem}

/-- Handling a block is storing and filing it, and then a sequence of edits. -/
theorem handleBlock_edits {fuel : ℕ} {s s' : Dbs} {msg : Mem} {sent : List Sent}
    (h : handleBlock env u fuel s msg = .ok (s', sent)) :
    ReflTransGen (RevertEdit env u.scan.revert (fileBlock env u s (msg.shift 4)).blocks)
      (fileBlock env u s (msg.shift 4)) s' := by
  obtain ⟨⟨dbs, scanned⟩, hscan, hret⟩ := ok_of_bind h
  cases hret
  exact dataLimboScan_edits hscan

/-- Handling a block that starts no reorganisation ends, with the block stored
and filed and nothing else done. -/
theorem handleBlock_quiet {s : Dbs} {msg : Mem}
    (hno : NoReorg env u.scan (fileBlock env u s (msg.shift 4))) (s' : Dbs) :
    Handles env s (.block u msg) s' ↔ s' = fileBlock env u s (msg.shift 4) := by
  constructor
  · rintro ⟨fuel, sent, hrun⟩
    obtain ⟨scanned, hscan, hret⟩ := ok_of_bind hrun
    cases hret
    rcases dataLimboScan_quiet hno fuel with ⟨_, hfuel⟩ | ⟨sent', hquiet⟩
    · exact absurd (hscan.symm.trans hfuel) (by simp)
    · exact congrArg Prod.fst (Except.ok.inj (hscan.symm.trans hquiet))
  · rintro rfl
    let fuel := (dbRecords (fileBlock env u s (msg.shift 4)).limbo).length + 1
    rcases dataLimboScan_quiet hno fuel with ⟨hshort, _⟩ | ⟨sent, hquiet⟩
    · exact absurd hshort (by omega)
    · exact ⟨fuel, _, by rw [handleBlock, ctypeBlockPosBlock, hquiet]; rfl⟩

theorem storeBlock_of_valid (u : BlockMem) (s : Dbs) {block : Mem}
    (h : env.validBlock block = true) :
    storeBlock env u s block =
      { s with
        blocks := s.blocks.insert (blockComputeHash env.digest block) (blockRecord env u.addr block)
        txs := indexTxs s.txs (blockTxHashes env.host env.digest block)
          (blockComputeHash env.digest block) } := by
  rw [storeBlock, if_pos h, dataBlocksAdd_passed]

theorem storeBlock_of_invalid (u : BlockMem) (s : Dbs) {block : Mem}
    (h : env.validBlock block = false) : storeBlock env u s block = s := by
  rw [storeBlock, h]
  rfl

/-- A block is filed in at most one place. -/
theorem fileBlock_cases (env : Env .passed) (u : BlockMem) (s : Dbs) (block : Mem) :
    (receivedFilings env u s block = [.limbo] ∧ fileBlock env u s block =
      dataLimboSafeAdd env u.limboBuffer (storeBlock env u s block) block) ∨
    (receivedFilings env u s block = [.chain] ∧ fileBlock env u s block =
      dataChainSafeSet env u.chainHeader (storeBlock env u s block) block) ∨
    (receivedFilings env u s block = [] ∧ fileBlock env u s block = storeBlock env u s block) := by
  have hcases : ∀ h c l, blockFilings h c l = [.limbo] ∨ blockFilings h c l = [.chain] ∨
      blockFilings h c l = [] := by
    intro h c l
    unfold blockFilings
    split_ifs <;> simp
  rcases hcases _ _ _ with hl | hc | hnil
  · exact .inl ⟨hl, by rw [fileBlock, receivedFilings, hl]; rfl⟩
  · exact .inr (.inl ⟨hc, by rw [fileBlock, receivedFilings, hc]; rfl⟩)
  · exact .inr (.inr ⟨hnil, by rw [fileBlock, receivedFilings, hnil]; rfl⟩)

/-- Filing touches the limbo and the chain database only. -/
theorem fileBlock_frame (env : Env .passed) (u : BlockMem) (s : Dbs) (block : Mem) :
    ∃ limbo chain, fileBlock env u s block =
      { storeBlock env u s block with limbo := limbo, chain := chain } := by
  rcases fileBlock_cases env u s block with ⟨_, h⟩ | ⟨_, h⟩ | ⟨_, h⟩
  · exact ⟨_, _, h⟩
  · obtain ⟨chain, hset⟩ :=
      dataChainSafeSet_frame env u.chainHeader (storeBlock env u s block) block
    exact ⟨_, chain, h.trans hset⟩
  · exact ⟨_, _, h⟩

theorem fileBlock_txs (env : Env .passed) (u : BlockMem) (s : Dbs) (block : Mem) :
    (fileBlock env u s block).txs = (storeBlock env u s block).txs := by
  obtain ⟨limbo, chain, h⟩ := fileBlock_frame env u s block
  rw [h]

theorem fileBlock_mempool (env : Env .passed) (u : BlockMem) (s : Dbs) (block : Mem) :
    (fileBlock env u s block).mempool = (storeBlock env u s block).mempool := by
  obtain ⟨limbo, chain, h⟩ := fileBlock_frame env u s block
  rw [h]

/-- **Rule for a block message.** What holds when the block is filed, and is kept
by every edit of a reorganisation if there can be one, holds afterwards. -/
theorem Handles.block_rule {P : Dbs → Prop} {s s' : Dbs} {msg : Mem}
    (h : Handles env s (.block u msg) s') (hfiled : P (fileBlock env u s (msg.shift 4)))
    (hedit : ¬ NoReorg env u.scan (fileBlock env u s (msg.shift 4)) → ∀ t t',
      t.blocks = (storeBlock env u s (msg.shift 4)).blocks →
      RevertEdit env u.scan.revert (storeBlock env u s (msg.shift 4)).blocks t t' → P t → P t') :
    P s' := by
  by_cases hno : NoReorg env u.scan (fileBlock env u s (msg.shift 4))
  · rw [(handleBlock_quiet hno s').mp h]
    exact hfiled
  · obtain ⟨fuel, sent, hrun⟩ := h
    have hedits := handleBlock_edits hrun
    rw [fileBlock_blocks] at hedits
    refine (run_invariant (P := fun t => t.blocks = (storeBlock env u s (msg.shift 4)).blocks ∧
      P t) ?_ hedits ⟨fileBlock_blocks env u s _, hfiled⟩).2
    rintro t t' hstep ⟨hblocks, hP⟩
    exact ⟨hstep.blocks_eq.trans hblocks, hedit hno t t' hblocks hstep hP⟩

theorem storeBlock_chain (env : Env .passed) (u : BlockMem) (s : Dbs) (block : Mem) :
    (storeBlock env u s block).chain = s.chain := by
  cases h : env.validBlock block with
  | true => rw [storeBlock_of_valid u s h]
  | false => rw [storeBlock_of_invalid u s h]

theorem storeBlock_chainGet (env : Env .passed) (u : BlockMem) (s : Dbs) (block : Mem) :
    dataChainGet env (storeBlock env u s block) = dataChainGet env s :=
  dataChainGet_congr env fun key _ => by rw [storeBlock_chain]

theorem fileBlock_chainGet (env : Env .passed) (u : BlockMem) (s : Dbs) (block : Mem) :
    dataChainGet env (fileBlock env u s block) = dataChainGet env s := by
  have hstore := storeBlock_chainGet env u s block
  rcases fileBlock_cases env u s block with ⟨_, h⟩ | ⟨_, h⟩ | ⟨_, h⟩
  · rw [h]; exact hstore
  · rw [h, dataChainGet_frozen, hstore]
  · rw [h, hstore]

theorem handleTx_cases {dest : Mem} {u : EntryMem} {s s' : Dbs} {msg : Mem}
    (h : handleTx env dest u s msg = .ok s') :
    s' = s ∨ ∃ tx p, dataMempoolAdd env.host env.digest u s.mempool tx = .ok p ∧
      s' = { s with mempool := p } := by
  unfold handleTx at h
  split at h
  · obtain ⟨tx, _, hrest⟩ := ok_of_bind h
    obtain ⟨p, hadd, hret⟩ := ok_of_bind hrest
    cases hret
    exact .inr ⟨tx.1, p, hadd, rfl⟩
  · cases h
    exact .inl rfl

/-- **The chain is frozen.** No message changes what `data_chain_get` returns. -/
theorem Handles.chainGet_eq {s s' : Dbs} {m : Msg} (h : Handles env s m s') :
    dataChainGet env s' = dataChainGet env s := by
  cases m with
  | block u msg =>
      obtain ⟨fuel, sent, hrun⟩ := h
      have hedits := run_frame (fun _ _ hedit => hedit.chainGet_eq) (handleBlock_edits hrun)
      rw [hedits, fileBlock_chainGet]
  | tx dest u msg =>
      rcases handleTx_cases h with rfl | ⟨tx, p, _, rfl⟩
      · rfl
      · rfl

/-- The blocks database changes only by storing an accepted block. -/
theorem Handles.blocks_eq {s s' : Dbs} {m : Msg} (h : Handles env s m s') :
    s'.blocks = match m with
      | .block u msg => (storeBlock env u s (msg.shift 4)).blocks
      | .tx _ _ _ => s.blocks := by
  cases m with
  | block u msg =>
      obtain ⟨fuel, sent, hrun⟩ := h
      rw [edits_blocks_eq (handleBlock_edits hrun), fileBlock_blocks]
  | tx dest u msg =>
      rcases handleTx_cases h with rfl | ⟨tx, p, _, rfl⟩
      · rfl
      · rfl

/-! ## Messages to try things on -/

/-- A `<block>` message that carries `block`, with a size field of zero. -/
def blockMsg (block : Mem) : Mem := Mem.splice (fun _ => 0) 4 block

@[simp] theorem blockMsg_shift (block : Mem) : (blockMsg block).shift 4 = block :=
  Mem.shift_splice _ 4 block

theorem sampleEnv_noReorg (u : ScanMem) (dbs : Dbs) : NoReorg sampleEnv u dbs :=
  fun _ _ => rfl

theorem sampleEnv_handles (u : BlockMem) (s : Dbs) (block : Mem) :
    Handles sampleEnv s (.block u (blockMsg block)) (fileBlock sampleEnv u s block) := by
  rw [handleBlock_quiet (sampleEnv_noReorg _ _), blockMsg_shift]

end Passed

end Freecoin
