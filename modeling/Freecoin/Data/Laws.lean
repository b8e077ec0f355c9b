import Freecoin.Data.View

/-!
# The databases as maps

What the callers of `data.c` take for granted: blocks and txs are maps on
32-byte hashes, and the chain is a map from heights to hashes.

The first fails with the library as documented. `new_dbt` leaves `size` at
zero, so every key is the empty one and every record is stored empty. The
second fails even where the bytes passed are the key: `data_chain_safe_set`
writes under the hash what `data_chain_get` looks for under the height.
-/

namespace Freecoin

open Lib

/-! ## Blocks and txs -/

/-- A call that stores something; see `blockComputeSize` for `addr`. -/
inductive StoreCall : Type where
  | blocksAdd (addr : UInt8) (block : Mem)
  | txsAdd (txHash blockHash : Mem)

section Maps

variable {B : Bdb} (env : Env B)

def StoreCall.run (dbs : Dbs) : StoreCall → Dbs
  | .blocksAdd addr block => dataBlocksAdd env addr dbs block
  | .txsAdd txHash blockHash =>
      dataTxsAdd B dbs (txHash.slice 0 sizeSha256) (blockHash.slice 0 sizeSha256)

/-- The calls, on a node that has just been set up. -/
def storeRun (calls : List StoreCall) : Dbs := calls.foldl (StoreCall.run env) emptyNode

/-- The bytes of a block: its header and as many transactions as it counts. -/
def blockBytes (o : ByteOrder) (block : Mem) : Bytes :=
  block.slice 0 (txEnd o block (blockGetTxCount o block).toNat sizeBlockHeader)

/-- The hash under which a call stores a block. -/
def StoreCall.blockKeys : StoreCall → List Bytes
  | .blocksAdd _ block => [blockComputeHash env.digest block]
  | .txsAdd _ _ => []

/-- The hashes under which a call stores transactions. -/
def StoreCall.txKeys : StoreCall → List Bytes
  | .blocksAdd _ block => blockTxHashes env.host env.digest block
  | .txsAdd txHash _ => [txHash.slice 0 sizeSha256]

/-- The bytes of the last block that was stored under `h`. -/
def lastBlock (calls : List StoreCall) (h : Bytes) : Option Bytes :=
  calls.foldl (fun last call =>
    match call with
    | .blocksAdd _ block =>
        if blockComputeHash env.digest block = h then some (blockBytes env.host block) else last
    | .txsAdd _ _ => last) none

/-- The two databases after `calls` are maps on 32-byte hashes. -/
structure StoreIsMap (calls : List StoreCall) : Prop where
  get : ∀ (h dest : Mem) (bs : Bytes), lastBlock env calls (h.slice 0 sizeSha256) = some bs →
    (dataBlocksGet B (storeRun env calls) h dest).1 = true ∧
    (dataBlocksGet B (storeRun env calls) h dest).2.slice 0 bs.length = bs
  blocksExists : ∀ h : Mem, dataBlocksExists B (storeRun env calls) h = true ↔
    ∃ call ∈ calls, h.slice 0 sizeSha256 ∈ call.blockKeys env
  txsExists : ∀ t : Mem, dataTxsExists B (storeRun env calls) (t.slice 0 sizeSha256) = true ↔
    ∃ call ∈ calls, t.slice 0 sizeSha256 ∈ call.txKeys env
  /-- Storing under one hash changes nothing that is found under another. -/
  blocksFrame : ∀ before call after, calls = before ++ call :: after →
    ∀ h : Mem, h.slice 0 sizeSha256 ∉ call.blockKeys env →
      dataBlocksExists B (storeRun env (before ++ [call])) h =
        dataBlocksExists B (storeRun env before) h ∧
      dataBlocksGet B (storeRun env (before ++ [call])) h =
        dataBlocksGet B (storeRun env before) h
  txsFrame : ∀ before call after, calls = before ++ call :: after →
    ∀ t : Mem, t.slice 0 sizeSha256 ∉ call.txKeys env →
      dataTxsExists B (storeRun env (before ++ [call])) (t.slice 0 sizeSha256) =
        dataTxsExists B (storeRun env before) (t.slice 0 sizeSha256)

end Maps

section Documented

variable (env : Env .documented)

theorem dataBlocksExists_emptyNode (h : Mem) :
    dataBlocksExists .documented emptyNode h = false := rfl

theorem dataTxsExists_emptyNode (t : Bytes) : dataTxsExists .documented emptyNode t = false := rfl

/-- Once a block is stored, every hash is found. -/
theorem dataBlocksExists_blocksAdd (addr : UInt8) (dbs : Dbs) (block h : Mem) :
    dataBlocksExists .documented (dataBlocksAdd env addr dbs block) h = true :=
  dbExists_dbPut rfl

theorem dataTxsExists_txsAdd (dbs : Dbs) (txHash blockHash t : Bytes) :
    dataTxsExists .documented (dataTxsAdd .documented dbs txHash blockHash) t = true :=
  dbExists_dbPut rfl

/-- There is always another hash. -/
theorem exists_other_hash (x : Bytes) : ∃ m : Mem, m.slice 0 sizeSha256 ≠ x := by
  by_contra hall
  have heq : ∀ m : Mem, m.slice 0 sizeSha256 = x := fun m => by_contra fun hne => hall ⟨m, hne⟩
  exact absurd ((heq fun _ => 0).trans (heq fun _ => 1).symm) (by decide)

/-- The first call already makes a hash found that nothing was stored under. -/
theorem not_storeIsMap_cons (call : StoreCall) (rest : List StoreCall) :
    ¬ StoreIsMap env (call :: rest) := by
  intro hmap
  cases call with
  | blocksAdd addr block =>
      obtain ⟨h, hne⟩ := exists_other_hash (blockComputeHash env.digest block)
      have hframe := (hmap.blocksFrame [] _ rest rfl h (by simpa [StoreCall.blockKeys] using hne)).1
      have hfound := dataBlocksExists_blocksAdd env addr emptyNode block h
      exact Bool.noConfusion
        ((dataBlocksExists_emptyNode h).symm.trans (hframe.symm.trans hfound))
  | txsAdd txHash blockHash =>
      obtain ⟨t, hne⟩ := exists_other_hash (txHash.slice 0 sizeSha256)
      have hframe := hmap.txsFrame [] _ rest rfl t (by simpa [StoreCall.txKeys] using hne)
      have hfound := dataTxsExists_txsAdd emptyNode (txHash.slice 0 sizeSha256)
        (blockHash.slice 0 sizeSha256) (t.slice 0 sizeSha256)
      exact Bool.noConfusion
        ((dataTxsExists_emptyNode _).symm.trans (hframe.symm.trans hfound))

/-- **The store is a map only while it is empty.** -/
theorem storeIsMap_iff_nil (calls : List StoreCall) : StoreIsMap env calls ↔ calls = [] := by
  constructor
  · intro hmap
    cases calls with
    | nil => rfl
    | cons call rest => exact absurd hmap (not_storeIsMap_cons env call rest)
  · rintro rfl
    refine ⟨?_, ?_, ?_, ?_, ?_⟩
    · intro h dest bs hlast
      cases hlast
    · intro h
      constructor
      · intro hfound
        exact Bool.noConfusion ((dataBlocksExists_emptyNode h).symm.trans hfound)
      · rintro ⟨call, hmem, -⟩
        exact absurd hmem List.not_mem_nil
    · intro t
      constructor
      · intro hfound
        exact Bool.noConfusion ((dataTxsExists_emptyNode _).symm.trans hfound)
      · rintro ⟨call, hmem, -⟩
        exact absurd hmem List.not_mem_nil
    · intro before call after hsplit
      exact absurd hsplit.symm (by simp)
    · intro before call after hsplit
      exact absurd hsplit.symm (by simp)

end Documented

/-- The node of `sampleEnv`, with the library as documented. -/
def documentedEnv : Env .documented where
  host := .little
  digest := sha256
  validBlock := fun _ => true
  canTraceBack := fun _ _ => (false, fun _ => 0)
  isValidChain := fun _ _ _ => false
  limboMaxLevelSize := 1
  maxMempoolSize := 500
  gccVersion := 0

/-- Storing `genesis` makes every hash a stored one. -/
theorem genesis_stored_everywhere :
    ¬ ∀ calls : List StoreCall, StoreIsMap documentedEnv calls := by
  intro hall
  exact not_storeIsMap_cons documentedEnv (.blocksAdd 0 genesis) [] (hall _)

/-! ## The chain -/

/-- After `data_chain_safe_set(blockHash)` the chain has that hash at height `h`,
and at every other height what it had. -/
structure ChainSetLaw (env : Env .passed) (block : Mem) (dbs : Dbs) (blockHash : Mem)
    (h : UInt32) : Prop where
  get : ChainHas env (dataChainSafeSet env block dbs blockHash) h (blockHash.slice 0 sizeSha256)
  found : ∀ buffer,
    dataChainExists env buffer (dataChainSafeSet env block dbs blockHash) h blockHash = true
  frame : ∀ h', h' ≠ h → dataChainGet env (dataChainSafeSet env block dbs blockHash) h' =
    dataChainGet env dbs h'

/-- `data_chain_exists` asks whether the chain has the hash at the height. -/
theorem dataChainExists_of_chainHas {env : Env .passed} {dbs : Dbs} {h : UInt32} {x : Mem}
    (hhas : ChainHas env dbs h (x.slice 0 sizeSha256)) (buffer : Mem) :
    dataChainExists env buffer dbs h x = true := by
  obtain ⟨hret, hslice⟩ := hhas buffer
  unfold dataChainExists
  dsimp only
  rw [hret, hslice, beq_self_eq_true]
  rfl

/-- **Set and get.** The law holds for a hash and a height if and only if the chain
had that hash at that height already. -/
theorem chainSetLaw_iff (env : Env .passed) (block : Mem) (dbs : Dbs) (blockHash : Mem)
    (h : UInt32) :
    ChainSetLaw env block dbs blockHash h ↔ ChainHas env dbs h (blockHash.slice 0 sizeSha256) := by
  have hfrozen := dataChainGet_frozen env block dbs blockHash
  constructor
  · intro hlaw
    exact (ChainHas.congr hfrozen).mp hlaw.get
  · intro hhas
    have hafter := (ChainHas.congr hfrozen).mpr hhas
    exact ⟨hafter, dataChainExists_of_chainHas hafter, fun h' _ => congrFun hfrozen h'⟩

/-- The child of `genesis` is stored, and setting it does not put it on the chain. -/
theorem child_set_not_got :
    ¬ ∀ (dbs : Dbs) (x r : Bytes) (block : Mem), dbs.blocks.lookup x = some r →
      recordHash sampleEnv r = x → sizeBlockHeader ≤ r.length →
      ChainSetLaw sampleEnv block dbs (Mem.ofBytes x) (recordHeight sampleEnv r) := by
  intro hall
  have hlaw := hall forkNode childHash childRecord (fun _ => 0) (AList.lookup_insert _)
    childHash_eq (by decide)
  have hhas := (ChainHas.congr (dataChainGet_frozen ..)).mp hlaw.get
  have hgenesis : ChainHas sampleEnv genesisNode (recordHeight sampleEnv childRecord) _ :=
    (ChainHas.congr (dataChainGet_congr sampleEnv fun _ _ => rfl)).mp hhas
  exact absurd (genesisNode_chainHas.mp hgenesis).1 (by decide)

end Freecoin
