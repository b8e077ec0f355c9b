import Freecoin.Body
import Freecoin.Merkle
import Mathlib.Logic.Equiv.Basic

/-!
# compute_merkle_root against its comment

The comment above the function defines the root: the transactions are hashed,
the hashes are hashed in pairs, an odd last one with itself, until one hash
remains. The code does this in place. `tree_hashes` and `buffer` share out the
buffers that were allocated, and a swap only changes which of the two holds
which: at every point of a run each buffer is held exactly once, so no new
hash is written over one that is still wanted, and `free` gets each buffer
once.
-/

namespace Freecoin

open Lib

/-- The buffers that `tree_hashes` and `buffer` point at. -/
def TreeState.buffers (n : ℕ) (s : TreeState) : List ℕ :=
  (List.range n).map s.treeHashes ++ [s.buffer]

/-- The addresses handed to `free` at the end, in order. -/
def merkleFrees (n : ℕ) (s : TreeState) : List ℕ :=
  s.buffer :: (List.range n).map s.treeHashes

/-! ## The points of a run -/

/-- The states of one level, after each swap. -/
def levelStates (H : Digest) (leafCount : ℕ) (s : TreeState) : List TreeState :=
  let remainder := leafCount % 2
  let pairCount := (leafCount - remainder) / 2
  let states := (List.range pairCount).map fun k => pairLoop H (k + 1) s
  if remainder ≠ 0 then
    states ++ [hashPair H (leafCount - 1) (leafCount - 1) pairCount (pairLoop H pairCount s)]
  else states

/-- The states of all levels. -/
def loopStates (H : Digest) : ℕ → ℕ → TreeState → List TreeState
  | 0, _, _ => []
  | fuel + 1, leafCount, s =>
      if leafCount ≤ 1 then []
      else levelStates H leafCount s ++
        loopStates H fuel (treeLevel H leafCount s).2 (treeLevel H leafCount s).1

/-- The states of a run: when the leaves are in place, and after each swap. -/
def merkleStates (o : ByteOrder) (H : Digest) (junk : ℕ → Hash) (txs : Mem) (txCount : UInt32) :
    List TreeState :=
  let s := treeInit o H junk txs txCount.toNat
  s :: loopStates H txCount.toNat txCount.toNat s

theorem getLast?_levelStates (H : Digest) {n : ℕ} (hn : 1 < n) (s : TreeState) :
    (levelStates H n s).getLast? = some (treeLevel H n s).1 := by
  simp only [levelStates, treeLevel]
  rcases Nat.mod_two_eq_zero_or_one n with heven | hodd
  · obtain ⟨k, hk⟩ : ∃ k, (n - n % 2) / 2 = k + 1 := ⟨(n - n % 2) / 2 - 1, by omega⟩
    rw [if_neg (by omega), if_neg (by omega), hk, List.range_succ, List.map_append,
      List.getLast?_append]
    rfl
  · rw [if_pos (by omega), if_pos (by omega), List.getLast?_append]
    rfl

/-- The last of these points is where the run ends. -/
theorem getLast?_loopStates (H : Digest) : ∀ (fuel n : ℕ) (s : TreeState),
    (s :: loopStates H fuel n s).getLast? = some (treeLoop H fuel n s).1 := by
  intro fuel
  induction fuel with
  | zero => intro n s; rfl
  | succ fuel ih =>
      intro n s
      rw [loopStates, treeLoop]
      by_cases hone : n ≤ 1
      · rw [if_pos hone, if_pos hone]
        rfl
      · obtain ⟨before, hlevel⟩ := List.getLast?_eq_some_iff.mp
          (getLast?_levelStates H (Nat.not_le.mp hone) s)
        have hrest := ih (treeLevel H n s).2 (treeLevel H n s).1
        rw [if_neg hone, if_neg hone, hlevel, List.append_assoc, ← List.cons_append,
          List.getLast?_append, List.singleton_append, hrest]
        rfl

/-! ## Every buffer is held once -/

/-- A slot by its number, `buffer` being the one after the slots of `tree_hashes`. -/
def TreeState.held (n : ℕ) (s : TreeState) (i : ℕ) : ℕ :=
  if i = n then s.buffer else s.treeHashes i

theorem TreeState.buffers_eq (n : ℕ) (s : TreeState) :
    s.buffers n = (List.range (n + 1)).map (s.held n) := by
  rw [TreeState.buffers, List.range_succ, List.map_append, List.map_singleton]
  congr 1
  · refine List.map_congr_left fun i hi => ?_
    rw [TreeState.held, if_neg (Nat.ne_of_lt (List.mem_range.mp hi))]
  · rw [TreeState.held, if_pos rfl]

theorem range_map_swap_perm {n k : ℕ} (hk : k < n) :
    ((List.range (n + 1)).map (Equiv.swap k n)).Perm (List.range (n + 1)) := by
  have hnodup : ((List.range (n + 1)).map (Equiv.swap k n)).Nodup :=
    List.nodup_range.map (Equiv.swap k n).injective
  rw [List.perm_ext_iff_of_nodup hnodup List.nodup_range]
  intro x
  have hlt : Equiv.swap k n x < n + 1 ↔ x < n + 1 := by
    rw [Equiv.swap_apply_def]
    split_ifs with h₁ h₂
    · omega
    · omega
    · exact Iff.rfl
  rw [List.mem_range, ← hlt, List.mem_map]
  constructor
  · rintro ⟨y, hy, rfl⟩
    rw [Equiv.swap_apply_self]
    exact List.mem_range.mp hy
  · intro hx
    exact ⟨_, List.mem_range.mpr hx, Equiv.swap_apply_self k n x⟩

/-- One swap. -/
theorem hashPair_buffers {H : Digest} {n i j k : ℕ} (s : TreeState) (hk : k < n) :
    ((hashPair H i j k s).buffers n).Perm (s.buffers n) := by
  have hheld : (hashPair H i j k s).held n = s.held n ∘ Equiv.swap k n := by
    funext x
    simp only [TreeState.held, hashPair, Function.comp_apply, Equiv.swap_apply_def,
      Function.update_apply]
    split_ifs <;> first | rfl | omega
  rw [TreeState.buffers_eq, TreeState.buffers_eq, hheld, ← List.map_map]
  exact (range_map_swap_perm hk).map _

theorem pairLoop_buffers {H : Digest} {n : ℕ} (s : TreeState) : ∀ k, k ≤ n →
    ((pairLoop H k s).buffers n).Perm (s.buffers n) := by
  intro k
  induction k with
  | zero => intro _; exact .refl _
  | succ k ih =>
      intro hk
      exact (hashPair_buffers _ hk).trans (ih (by omega))

/-- All points of a level, and where it ends. -/
theorem levelStates_buffers {H : Digest} {n m : ℕ} (hm : m ≤ n) (s : TreeState) :
    ∀ s' ∈ levelStates H m s, (s'.buffers n).Perm (s.buffers n) := by
  have hpairs : ∀ s' ∈ (List.range ((m - m % 2) / 2)).map fun k => pairLoop H (k + 1) s,
      (s'.buffers n).Perm (s.buffers n) := by
    intro s' hs'
    obtain ⟨k, hk, rfl⟩ := List.mem_map.mp hs'
    have hlt := List.mem_range.mp hk
    exact pairLoop_buffers s (k + 1) (by omega)
  intro s' hs'
  simp only [levelStates] at hs'
  split at hs'
  · rename_i hodd
    rcases List.mem_append.mp hs' with hpair | hlast
    · exact hpairs s' hpair
    · rw [List.mem_singleton.mp hlast]
      exact (hashPair_buffers _ (by omega)).trans (pairLoop_buffers s _ (by omega))
  · exact hpairs s' hs'

theorem treeLevel_le {H : Digest} {m : ℕ} (s : TreeState) : (treeLevel H m s).2 ≤ m := by
  simp only [treeLevel]
  split
  · simp only
    omega
  · simp only
    omega

theorem loopStates_buffers {H : Digest} {n : ℕ} : ∀ (fuel m : ℕ) (s : TreeState), m ≤ n →
    ∀ s' ∈ loopStates H fuel m s, (s'.buffers n).Perm (s.buffers n) := by
  intro fuel
  induction fuel with
  | zero =>
      intro m s _ s' hs'
      exact absurd hs' List.not_mem_nil
  | succ fuel ih =>
      intro m s hm s' hs'
      rw [loopStates] at hs'
      split at hs'
      · exact absurd hs' List.not_mem_nil
      · rename_i hmore
        rcases List.mem_append.mp hs' with hlevel | hrest
        · exact levelStates_buffers hm s s' hlevel
        · have hstart := List.mem_of_getLast? (getLast?_levelStates H (Nat.not_le.mp hmore) s)
          exact (ih _ _ ((treeLevel_le s).trans hm) s' hrest).trans
            (levelStates_buffers hm s _ hstart)

/-- **At every point of a run** the pointers and the spare buffer are the buffers that
were allocated, in some order. -/
theorem merkleStates_buffers {o : ByteOrder} {H : Digest} {junk : ℕ → Hash} {txs : Mem}
    {txCount : UInt32} :
    ∀ s ∈ merkleStates o H junk txs txCount,
      (s.buffers txCount.toNat).Perm (List.range (txCount.toNat + 1)) := by
  have hinit : (treeInit o H junk txs txCount.toNat).buffers txCount.toNat =
      List.range (txCount.toNat + 1) := by
    rw [TreeState.buffers, List.range_succ]
    exact congrArg (· ++ _) (List.map_id _)
  intro s hs
  rcases List.mem_cons.mp hs with rfl | hlater
  · rw [hinit]
  · rw [← hinit]
    exact loopStates_buffers _ _ _ (Nat.le_refl _) s hlater

/-! ## The root -/

/-- Zeros for `x`, and ones for everything else. -/
def tellingDigest (x : Bytes) : Digest where
  hash m := List.replicate 32 (if m = x then 0 else 1)
  hash_length _ := rfl

/-- What every hash function maps to the same is the same. -/
theorem eq_of_map_sum {l l' : List Bytes} (h : ∀ H : Digest, l.map H.sum = l'.map H.sum) :
    l = l' := by
  have hlength := congrArg List.length (h (tellingDigest []))
  rw [List.length_map, List.length_map] at hlength
  refine List.ext_getElem hlength fun i hi hi' => ?_
  have hsum := congrArg (fun s => s[i]?) (h (tellingDigest l'[i]))
  simp only [List.getElem?_map, List.getElem?_eq_getElem hi, List.getElem?_eq_getElem hi',
    Option.map_some, Option.some.injEq] at hsum
  have hfirst := congrArg (fun s : Hash => s.1.head?) hsum
  dsimp only [Digest.sum, tellingDigest] at hfirst
  by_contra hne
  rw [if_neg hne, if_pos rfl] at hfirst
  exact absurd hfirst (by decide)

/-- The leaves are those of the transactions, whatever the hash function is. -/
theorem leafHashes_iff {o : ByteOrder} {txs : Mem} {ts : List (SerialTx o)}
    (h : LaidOut txs 0 ts) :
    (∀ H : Digest, leafHashes o H txs ts.length = ts.map fun t => H.sum t.bytes) ↔
      SameAfterWrap txs ts := by
  have hmap : ∀ H : Digest,
      leafHashes o H txs ts.length = (ts.map fun t => H.sum t.bytes) ↔
        (((cursorLoop o txs ts.length 0).1.map fun c => txBytes o (txs.shift c.toNat)).map
          H.sum = (ts.map SerialTx.bytes).map H.sum) := by
    intro H
    rw [leafHashes, List.map_map, List.map_map]
    rfl
  rw [← h.reads_iff]
  constructor
  · intro hall
    exact eq_of_map_sum fun H => (hmap H).mp (hall H)
  · intro hreads H
    rw [hmap, hreads]

/-- What the comment above `compute_merkle_root` asks of a run over the transactions
`ts`, and what becomes of the buffers. The counter of the loops is an `int`. -/
structure MerkleAsDocumented (o : ByteOrder) (H : Digest) (junk : ℕ → Hash) (txs : Mem)
    (txCount : UInt32) (ts : List (SerialTx o)) : Prop where
  counter : ∀ i ≤ txCount.toNat, i < 2 ^ 31
  leaves : leafHashes o H txs txCount.toNat = ts.map fun t => H.sum t.bytes
  /-- The loop comes to an end with one hash left. -/
  ends : (merkleRun o H junk txs txCount).2 = 1
  root : ReducesTo (pairHash H) (ts.map fun t => H.sum t.bytes)
    (computeMerkleRoot o H junk txs txCount)
  /-- What is read for each new hash is the documented pair. -/
  inputs : (merkleRun o H junk txs txCount).1.hashed =
    reducePairs (pairHash H) txCount.toNat (ts.map fun t => H.sum t.bytes)
  buffers : ∀ s ∈ merkleStates o H junk txs txCount,
    (s.buffers txCount.toNat).Perm (List.range (txCount.toNat + 1))
  frees : (merkleFrees txCount.toNat (merkleRun o H junk txs txCount).1).Perm
    (List.range (txCount.toNat + 1))

theorem merkleFrees_perm {o : ByteOrder} {H : Digest} {junk : ℕ → Hash} {txs : Mem}
    {txCount : UInt32} :
    (merkleFrees txCount.toNat (merkleRun o H junk txs txCount).1).Perm
      (List.range (txCount.toNat + 1)) := by
  have hlast : (merkleRun o H junk txs txCount).1 ∈ merkleStates o H junk txs txCount :=
    List.mem_of_getLast? (getLast?_loopStates H _ _ _)
  have hswap : (merkleFrees txCount.toNat (merkleRun o H junk txs txCount).1).Perm
      ((merkleRun o H junk txs txCount).1.buffers txCount.toNat) :=
    (List.perm_append_singleton _ _).symm
  exact hswap.trans (merkleStates_buffers _ hlast)

/-- **The Merkle root is the documented one**, for every hash function and whatever the
buffers held, if and only if the counter holds the number of transactions and those that
start past 2³² bytes also lie where the cursor has wrapped to. -/
theorem computeMerkleRoot_documented (o : ByteOrder) (txs : Mem) (txCount : UInt32)
    (ts : List (SerialTx o)) (hpos : 1 ≤ txCount) (hcount : txCount.toNat = ts.length)
    (hbody : LaidOut txs 0 ts) :
    (∀ (H : Digest) (junk : ℕ → Hash), MerkleAsDocumented o H junk txs txCount ts) ↔
      txCount.toNat < 2 ^ 31 ∧ SameAfterWrap txs ts := by
  constructor
  · intro hall
    have hsome := hall sha256 fun _ => sha256.sum []
    refine ⟨hsome.counter _ (Nat.le_refl _), (leafHashes_iff hbody).mp fun H => ?_⟩
    rw [← hcount]
    exact (hall H fun _ => H.sum []).leaves
  · rintro ⟨hint, hwrap⟩ H junk
    have hleaves : leafHashes o H txs txCount.toNat = ts.map fun t => H.sum t.bytes := by
      rw [hcount]
      exact (leafHashes_iff hbody).mpr hwrap H
    obtain ⟨hends, hroot, hinputs⟩ := merkleRun_spec o H junk txs txCount hpos
    rw [hleaves] at hroot hinputs
    exact ⟨fun i hi => Nat.lt_of_le_of_lt hi hint, hleaves, hends,
      reducesTo_of_reduce _ _ hroot.symm, hinputs, merkleStates_buffers, merkleFrees_perm⟩

/-- Of three transactions the last one is hashed with itself. -/
theorem computeMerkleRoot_documented_three :
    MerkleAsDocumented .little sha256 (fun _ => sha256.sum [])
      (Mem.ofBytes (txsBytes (threeTxs .little))) 3 (threeTxs .little) := by
  have hbody : LaidOut (Mem.ofBytes (txsBytes (threeTxs .little))) 0 (threeTxs .little) :=
    laidOut_ofBytes _
  have hwrap : SameAfterWrap (Mem.ofBytes (txsBytes (threeTxs .little))) (threeTxs .little) :=
    sameAfterWrap_of_le (by rw [txsBytes_threeTxs]; decide)
  exact (computeMerkleRoot_documented .little _ 3 (threeTxs .little) (by decide) rfl hbody).mpr
    ⟨by decide, hwrap⟩ sha256 _

/-! ### A body of more than 2³² bytes -/

/-- 202 transactions with as many inputs and outputs as the fields can say, and zeros in
them, take more than 2³² bytes. One of ten bytes follows, with a lock time that is not zero:
the cursor that should come to it points into the first one. -/
def wrappingBody : List (SerialTx .little) :=
  List.replicate 202 (filledTx .little 65535 65535 0) ++ [filledTx .little 0 0 1]

theorem txsBytes_replicate {o : ByteOrder} (n : ℕ) (t : SerialTx o) :
    (txsBytes (List.replicate n t)).length = n * t.bytes.length := by
  induction n with
  | zero => rw [Nat.zero_mul]; rfl
  | succ n ih =>
      rw [List.replicate_succ, txsBytes_cons, List.length_append, ih, Nat.succ_mul, Nat.add_comm]

theorem wrappingBody_not_same :
    ¬ SameAfterWrap (Mem.ofBytes (txsBytes wrappingBody)) wrappingBody := by
  intro hsame
  have hlast : (4315612840, filledTx .little 0 0 1) ∈
      (txOffsets 0 wrappingBody).zip wrappingBody := by
    have hoffset : 0 + (txsBytes (List.replicate 202 (filledTx .little 65535 65535 0))).length =
        4315612840 := by
      rw [txsBytes_replicate, filledTx_length]
      decide
    rw [wrappingBody, txOffsets_append, List.zip_append (by rw [txOffsets_length]), hoffset]
    exact List.mem_append_right _ List.mem_cons_self
  have hslice := hsame _ hlast (by decide)
  have hread := congrArg (fun bs : Bytes => bs[6]?) hslice
  dsimp only at hread
  rw [filledTx_getElem? (by decide) (by decide), Mem.slice_getElem?, filledTx_length,
    if_pos (by decide)] at hread
  have hzero : Mem.ofBytes (txsBytes wrappingBody) (4315612840 % 2 ^ 32 + 6) = 0 := by
    rw [Mem.ofBytes, Mem.load_apply, wrappingBody, List.replicate_succ, List.cons_append,
      txsBytes_cons, List.getElem?_append_left (by rw [filledTx_length]; decide),
      filledTx_getElem? (by decide) (by decide)]
    rfl
  rw [hzero] at hread
  exact absurd (Option.some.inj hread) (by decide)

/-- The root of that body is not the documented one for every hash function. -/
theorem wrappingBody_root :
    ¬ ∀ (o : ByteOrder) (H : Digest) (junk : ℕ → Hash) (txs : Mem) (txCount : UInt32)
      (ts : List (SerialTx o)), 1 ≤ txCount → txCount.toNat = ts.length → LaidOut txs 0 ts →
      MerkleAsDocumented o H junk txs txCount ts := by
  intro hall
  have hbody : LaidOut (Mem.ofBytes (txsBytes wrappingBody)) 0 wrappingBody := laidOut_ofBytes _
  have hcount : wrappingBody.length = 203 := by
    rw [wrappingBody, List.length_append, List.length_replicate]
    rfl
  refine wrappingBody_not_same ((leafHashes_iff hbody).mp fun H => ?_)
  have hrun := hall .little H (fun _ => H.sum []) (Mem.ofBytes (txsBytes wrappingBody)) 203
    wrappingBody (by decide) hcount.symm hbody
  rw [hcount]
  exact hrun.leaves

end Freecoin
