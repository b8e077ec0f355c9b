import Freecoin.Data.Store

/-!
# What the databases say

The vocabulary in which the properties of the node are stated: which hash is
on the chain at a height, what a stored record is as a block, which
transactions it contains, and which hashes a limbo level lists. Nothing here
is computed by the program.
-/

namespace Freecoin

open Lib

variable {B : Bdb} (env : Env B)

/-- `data_chain_get(h)` succeeds and yields `x`, whatever `dest` held. -/
def ChainHas (dbs : Dbs) (h : UInt32) (x : Bytes) : Prop :=
  ∀ dest, (dataChainGet env dbs h dest).1 = true ∧
    (dataChainGet env dbs h dest).2.slice 0 sizeSha256 = x

/-- `x` is the hash of a block on the chain. -/
def OnChain (dbs : Dbs) (x : Bytes) : Prop := ∃ h, ChainHas env dbs h x

/-- The hash of the block that a record holds. -/
def recordHash (r : Bytes) : Bytes := blockComputeHash env.digest (Mem.ofBytes r)

def recordHeight (r : Bytes) : UInt32 := blockGetHeight env.host (Mem.ofBytes r)

def recordPrevHash (r : Bytes) : Bytes := blockGetPrevHash (Mem.ofBytes r)

/-- The hashes of the transactions contained in a record: those the walk over
the body meets before it leaves the record. -/
def recordTxs (r : Bytes) : List Bytes :=
  let block := Mem.ofBytes r
  let cursors := txCursors env.host block (blockGetTxCount env.host block).toNat posBlockBody
  (cursors.filter fun c => c + txGetSize env.host (block.shift c) ≤ r.length).map
    fun c => txComputeHash env.host env.digest (block.shift c)

/-- `t` is the hash of a transaction contained in a block on the chain. -/
def Confirmed (dbs : Dbs) (t : Bytes) : Prop :=
  ∃ x r, OnChain env dbs x ∧ dbs.blocks.lookup x = some r ∧ t ∈ recordTxs env r

/-- A limbo record lists `x`: a count, and `x` among that many hashes. -/
def Lists (r x : Bytes) : Prop :=
  ∃ i < (btoui env.host (Mem.ofBytes r)).toNat,
    (r.drop (4 + sizeSha256 * i)).take sizeSha256 = x

/-- The limbo level of height `h` lists `x`, in a record that a scan can read. -/
def LimboLists (dbs : Dbs) (h : UInt32) (x : Bytes) : Prop :=
  ∃ r, dbs.limbo.lookup (hostBytes32 env.host h) = some r ∧ r.length ≤ limboBufferSize env ∧
    Lists env r x

/-! ## The chain view -/

section Passed

variable (env : Env .passed)

theorem dataChainGet_of_lookup {dbs : Dbs} {h : UInt32} {x : Bytes}
    (hx : dbs.chain.lookup (hostBytes32 env.host h) = some x) (hlen : x.length ≤ 32) (dest : Mem) :
    dataChainGet env dbs h dest = (true, dest.load x) := by
  unfold dataChainGet
  rcases dbGet_passed_cases dbs.chain (uintMem env.host h) dest 4 sizeSha256 with
    ⟨r, hr, _, hget⟩ | ⟨hnone, _⟩
  · rw [uintMem_slice, hx] at hr
    cases hr
    rw [hget]
  · rw [uintMem_slice] at hnone
    exact absurd (hnone x hx) (Nat.not_lt.mpr hlen)

theorem dataChainGet_success {dbs : Dbs} {h : UInt32} {dest : Mem}
    (hret : (dataChainGet env dbs h dest).1 = true) :
    ∃ x, dbs.chain.lookup (hostBytes32 env.host h) = some x ∧ x.length ≤ 32 := by
  unfold dataChainGet at hret
  rcases dbGet_passed_cases dbs.chain (uintMem env.host h) dest 4 sizeSha256 with
    ⟨r, hr, hlen, _⟩ | ⟨_, hfalse, _⟩
  · rw [uintMem_slice] at hr
    exact ⟨r, hr, hlen⟩
  · exact absurd (hfalse.symm.trans hret) (by decide)

/-- A shorter record would let the rest of `dest` show through. -/
theorem chainHas_iff {dbs : Dbs} {h : UInt32} {x : Bytes} :
    ChainHas env dbs h x ↔
      dbs.chain.lookup (hostBytes32 env.host h) = some x ∧ x.length = 32 := by
  constructor
  · intro hhas
    obtain ⟨r, hr, hle⟩ := dataChainGet_success env (hhas fun _ => 0).1
    have hload : ∀ dest : Mem, (dest.load r).slice 0 32 = x := by
      intro dest
      have := (hhas dest).2
      rwa [dataChainGet_of_lookup env hr hle] at this
    have hlen : r.length = 32 := by
      by_contra hne
      have hlt : r.length < 32 := by omega
      have h0 := (Mem.slice_eq_iff.mp ((hload fun _ => 0).trans (hload fun _ => 1).symm)) _ hlt
      rw [Nat.zero_add, Mem.load_ge (Nat.le_refl _), Mem.load_ge (Nat.le_refl _)] at h0
      exact absurd h0 (by decide)
    have hrx : r = x := (Mem.slice_load (fun _ => 0) hlen).symm.trans (hload fun _ => 0)
    subst hrx
    exact ⟨hr, hlen⟩
  · rintro ⟨hx, hlen⟩ dest
    rw [dataChainGet_of_lookup env hx (Nat.le_of_eq hlen)]
    exact ⟨rfl, Mem.slice_load dest hlen⟩
end Passed

variable {env}

theorem ChainHas.congr {dbs dbs' : Dbs} (h : dataChainGet env dbs' = dataChainGet env dbs)
    {height : UInt32} {x : Bytes} : ChainHas env dbs' height x ↔ ChainHas env dbs height x := by
  rw [ChainHas, ChainHas, h]

theorem OnChain.congr {dbs dbs' : Dbs} (h : dataChainGet env dbs' = dataChainGet env dbs)
    {x : Bytes} : OnChain env dbs' x ↔ OnChain env dbs x := by
  rw [OnChain, OnChain]
  simp only [ChainHas.congr h]

theorem Confirmed.congr {dbs dbs' : Dbs} (hblocks : dbs'.blocks = dbs.blocks)
    (h : dataChainGet env dbs' = dataChainGet env dbs) {t : Bytes} :
    Confirmed env dbs' t ↔ Confirmed env dbs t := by
  rw [Confirmed, Confirmed, hblocks]
  simp only [OnChain.congr h]

/-- Ten bytes of version, time and height, then the hash of the parent. -/
theorem recordPrevHash_of_append {a x b : Bytes} (ha : a.length = 10) (hx : x.length = 32) :
    recordPrevHash (a ++ x ++ b) = x := by
  apply List.ext_getElem?
  intro i
  rw [recordPrevHash, blockGetPrevHash, Mem.slice_getElem?]
  by_cases hi : i < sizeSha256
  · have hi' : i < x.length := hx ▸ hi
    have hget : (a ++ x ++ b)[10 + i]? = some x[i] := by
      rw [List.append_assoc, List.getElem?_append_right (by omega), ha, Nat.add_sub_cancel_left,
        List.getElem?_append_left hi', List.getElem?_eq_getElem hi']
    rw [if_pos hi, posBlockPrevHash, Mem.ofBytes, Mem.load_apply, hget,
      List.getElem?_eq_getElem hi']
    rfl
  · rw [if_neg hi, List.getElem?_eq_none (hx ▸ Nat.not_lt.mp hi)]

theorem ChainHas.unique {dbs : Dbs} {h : UInt32} {x y : Bytes} (hx : ChainHas env dbs h x)
    (hy : ChainHas env dbs h y) : x = y :=
  (hx fun _ => 0).2.symm.trans (hy fun _ => 0).2

/-! ## A node to try things on -/

/-- A little-endian host, with every stub returning 0 but `valid_block`, and
room for one hash in a limbo level. -/
def sampleEnv : Env .passed where
  host := .little
  digest := sha256
  validBlock := fun _ => true
  canTraceBack := fun _ _ => (false, fun _ => 0)
  isValidChain := fun _ _ _ => false
  limboMaxLevelSize := 1
  maxMempoolSize := 500
  gccVersion := 0

/-- A node that has just been set up. -/
def emptyNode : Dbs := ⟨∅, ∅, ∅, ∅, mempoolInit⟩

/-- A block of height 0 without parent or transactions. Its nonce makes bytes 6 to 9
of its hash zero, which is where `data_chain_get_height` looks for a height in
the chain record. -/
def genesis : Mem := Mem.ofBytes (List.replicate 75 0 ++ [164, 11, 2, 0] ++ List.replicate 4 0)

def genesisHash : Bytes := [123, 0, 0, 233, 22, 123, 151, 234].flatMap (List.replicate 4)

theorem genesisHash_eq : blockComputeHash sha256 genesis = genesisHash := by decide +kernel

/-- The chain is `genesis` alone. -/
def genesisNode : Dbs where
  blocks := AList.insert genesisHash (blockRecord sampleEnv 0 genesis) ∅
  chain := AList.insert (hostBytes32 .little 0) genesisHash ∅
  limbo := ∅
  txs := ∅
  mempool := mempoolInit

theorem genesisNode_height : dataChainGetHeight sampleEnv ⟨0, fun _ => 0⟩ genesisNode = 0 := by
  decide +kernel

theorem genesisNode_chainHas {h : UInt32} {x : Bytes} :
    ChainHas sampleEnv genesisNode h x ↔ h = 0 ∧ x = genesisHash := by
  rw [chainHas_iff]
  constructor
  · rintro ⟨hlookup, -⟩
    by_cases hzero : h = 0
    · subst hzero
      refine ⟨rfl, Option.some_inj.mp (hlookup.symm.trans ?_)⟩
      exact AList.lookup_insert _
    · have hne : hostBytes32 .little h ≠ hostBytes32 .little 0 := fun heq =>
        hzero (hostBytes32_injective _ heq)
      have hnone : genesisNode.chain.lookup (hostBytes32 .little h) = none := by
        rw [genesisNode, AList.lookup_insert_ne hne]
        rfl
      exact absurd (hlookup.symm.trans hnone) (by simp)
  · rintro ⟨rfl, rfl⟩
    exact ⟨AList.lookup_insert _, rfl⟩

/-- A block of height 1 on top of `genesis`, as a little-endian host reads it, with
one transaction of ten zeros. -/
def childRecord : Bytes :=
  List.replicate 6 0 ++ [1, 0, 0, 0] ++ genesisHash ++
    (List.replicate 37 0 ++ [1, 0, 0, 0] ++ List.replicate 10 0)

def childHash : Bytes := [57, 207, 95, 227, 101, 199, 93, 92].flatMap (List.replicate 4)

theorem childHash_eq : recordHash sampleEnv childRecord = childHash := by decide +kernel

/-- The chain ends at `genesis`, and its child is in limbo. -/
def forkNode : Dbs :=
  { genesisNode with
    blocks := genesisNode.blocks.insert childHash childRecord
    limbo := AList.insert (hostBytes32 .little 1) ([1, 0, 0, 0] ++ childHash) ∅ }

end Freecoin
