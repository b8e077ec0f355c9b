import Freecoin.Filling
import Freecoin.Lib.HashTree
import Freecoin.Merkle

/-!
# What a block hash commits to

A block hash is the hash of the header, and the header has the Merkle root and the
number of transactions. So it commits to every byte of a block whose root is that of
its body. The root alone does not: `compute_merkle_root` repeats the last hash of a
level of odd length, and bodies that become the same in this way have the same root.
No other bodies have.

"Or else" is in each case a pair of different byte strings with the same hash, among
those that were hashed; that there are no such pairs at all is true of no hash function.
-/

namespace Freecoin

open Lib

/-- The transactions of a body, as the leaf loop of `compute_merkle_root` meets them. -/
def bodyTxs (o : ByteOrder) (txs : Mem) (n : ℕ) : List Bytes :=
  (cursorLoop o txs n 0).1.map fun c => txBytes o (txs.shift c.toNat)

/-- Everything that is hashed for a root. -/
def rootInputs (o : ByteOrder) (H : Digest) (junk : ℕ → Hash) (txs : Mem) (txCount : UInt32) :
    List Bytes :=
  bodyTxs o txs txCount.toNat ++ merkleInputs o H junk txs txCount

theorem leafHashes_eq (o : ByteOrder) (H : Digest) (txs : Mem) (n : ℕ) :
    leafHashes o H txs n = (bodyTxs o txs n).map H.sum := by
  rw [leafHashes, bodyTxs, List.map_map]
  rfl

theorem bodyTxs_length (o : ByteOrder) (txs : Mem) (n : ℕ) : (bodyTxs o txs n).length = n := by
  rw [bodyTxs, List.length_map, cursorLoop_length]

/-! ## Leaves and pairs -/

/-- No transaction is as long as a pair of hashes. -/
theorem txBytes_length_ne (o : ByteOrder) (tx : Mem) : (txBytes o tx).length ≠ 64 := by
  rw [txBytes, Mem.slice_length, txGetSize]
  simp only [sizeTxHeader, sizeTxInput, sizeTxOutput]
  omega

section Collisions

variable {o : ByteOrder} {H : Digest} {junk₁ junk₂ : ℕ → Hash} {txs₁ txs₂ : Mem}
  {txCount₁ txCount₂ : UInt32}

/-- Transactions with the same leaf are equal, or they collide. -/
theorem bodyTxs_eq_or_collides {l₁ l₂ : List Bytes} (h : l₁.map H.sum = l₂.map H.sum)
    (h₁ : ∀ t ∈ l₁, t ∈ bodyTxs o txs₁ txCount₁.toNat)
    (h₂ : ∀ t ∈ l₂, t ∈ bodyTxs o txs₂ txCount₂.toNat) :
    l₁ = l₂ ∨
      Collides H (rootInputs o H junk₁ txs₁ txCount₁) (rootInputs o H junk₂ txs₂ txCount₂) := by
  rcases eq_or_collision H.sum h with heq | ⟨s, hs, t, ht, hne, hsame⟩
  · exact .inl heq
  · exact .inr ⟨s, List.mem_append_left _ (h₁ s hs), t, List.mem_append_left _ (h₂ t ht), hne,
      congrArg Subtype.val hsame⟩

/-- Pairs with the same combination are 64-byte strings with the same hash. -/
theorem collides_of_pairs
    (h : Collides (pairHash H) (merkleRun o H junk₁ txs₁ txCount₁).1.hashed
      (merkleRun o H junk₂ txs₂ txCount₂).1.hashed) :
    Collides H (rootInputs o H junk₁ txs₁ txCount₁) (rootInputs o H junk₂ txs₂ txCount₂) := by
  obtain ⟨p, hp, q, hq, hne, hsame⟩ := h
  exact ⟨pairBytes p, List.mem_append_right _ (List.mem_map_of_mem hp), pairBytes q,
    List.mem_append_right _ (List.mem_map_of_mem hq), fun heq => hne (pairBytes_injective heq),
    congrArg Subtype.val hsame⟩

/-- A leaf that is a combination: a transaction and a pair have the same hash. -/
theorem collides_of_mixes (h : Mixes (pairHash H) (leafHashes o H txs₁ txCount₁.toNat)
      (merkleRun o H junk₂ txs₂ txCount₂).1.hashed) :
    Collides H (rootInputs o H junk₁ txs₁ txCount₁) (rootInputs o H junk₂ txs₂ txCount₂) := by
  obtain ⟨leaf, hleaf, p, hp, hsame⟩ := h
  obtain ⟨c, hc, rfl⟩ := List.mem_map.mp hleaf
  refine ⟨_, List.mem_append_left _ (List.mem_map_of_mem hc), pairBytes p,
    List.mem_append_right _ (List.mem_map_of_mem hp), ?_, congrArg Subtype.val hsame.symm⟩
  intro heq
  have hlength := congrArg List.length heq
  rw [pairBytes_length] at hlength
  exact txBytes_length_ne o _ hlength

theorem collides_symm {as bs : List Bytes} (h : Collides H as bs) : Collides H bs as := by
  obtain ⟨a, ha, b, hb, hne, hsame⟩ := h
  exact ⟨b, hb, a, ha, hne.symm, hsame.symm⟩

end Collisions

/-! ## What the root commits to -/

theorem fullTree_map {α β : Type} (g : α → β) (l : List α) :
    fullTree (l.map g) = (fullTree l).map g := by
  rw [fullTree, fullTree, List.length_map, fullLeaves_map]

/-- **The Merkle root for bodies of any length.** Bodies with the same full tree of
transactions, the last ones repeated where a level has no even number, have the same
root. Bodies with the same root have the same full tree, or two different byte strings
that were hashed for them have the same hash. -/
theorem computeMerkleRoot_commits (o : ByteOrder) (H : Digest) (junk₁ junk₂ : ℕ → Hash)
    (txs₁ txs₂ : Mem) (txCount₁ txCount₂ : UInt32) (h₁ : 1 ≤ txCount₁) (h₂ : 1 ≤ txCount₂) :
    (fullTree (bodyTxs o txs₁ txCount₁.toNat) = fullTree (bodyTxs o txs₂ txCount₂.toNat) →
      computeMerkleRoot o H junk₁ txs₁ txCount₁ = computeMerkleRoot o H junk₂ txs₂ txCount₂) ∧
    (computeMerkleRoot o H junk₁ txs₁ txCount₁ = computeMerkleRoot o H junk₂ txs₂ txCount₂ →
      fullTree (bodyTxs o txs₁ txCount₁.toNat) = fullTree (bodyTxs o txs₂ txCount₂.toNat) ∨
      Collides H (rootInputs o H junk₁ txs₁ txCount₁) (rootInputs o H junk₂ txs₂ txCount₂)) := by
  obtain ⟨-, hroot₁, hlog₁⟩ := merkleRun_spec o H junk₁ txs₁ txCount₁ h₁
  obtain ⟨-, hroot₂, hlog₂⟩ := merkleRun_spec o H junk₂ txs₂ txCount₂ h₂
  have htree : ∀ txs n, fullTree (leafHashes o H txs n) = (fullTree (bodyTxs o txs n)).map H.sum :=
    fun txs n => by rw [leafHashes_eq, fullTree_map]
  constructor
  · intro hsame
    refine reduce_of_fullTree hroot₁.symm hroot₂.symm ?_
    rw [htree, htree, hsame]
  · intro hroot
    rw [hroot] at hroot₁
    have hbinds := reduce_binds_fullTree hroot₁.symm hroot₂.symm
    rw [← hlog₁, ← hlog₂] at hbinds
    rcases hbinds with hleaves | hpairs | hmix | hmix
    · rw [htree, htree] at hleaves
      exact bodyTxs_eq_or_collides hleaves (fun t ht => mem_of_mem_fullLeaves _ ht)
        fun t ht => mem_of_mem_fullLeaves _ ht
    · exact .inr (collides_of_pairs hpairs)
    · exact .inr (collides_of_mixes hmix)
    · exact .inr (collides_symm (collides_of_mixes hmix))

/-- Three transactions of ten zeros have the root of four of them. -/
theorem computeMerkleRoot_commits_three_four :
    computeMerkleRoot .little sha256 (fun _ => sha256.sum []) (fun _ => 0) 3 =
      computeMerkleRoot .little sha256 (fun _ => sha256.sum []) (fun _ => 0) 4 :=
  (computeMerkleRoot_commits .little sha256 _ _ _ _ 3 4 (by decide) (by decide)).1 (by decide)

/-! ## What the block hash commits to -/

/-- The size of a block, by its count field. -/
def blockSize (o : ByteOrder) (block : Mem) : ℕ :=
  txEnd o block (blockGetTxCount o block).toNat posBlockBody

theorem blockSize_eq (o : ByteOrder) (block : Mem) : blockSize o block =
    sizeBlockHeader + txEnd o (block.shift posBlockBody) (blockGetTxCount o block).toNat 0 :=
  txEnd_shift o block posBlockBody _ 0

/-- Everything that is hashed for a block hash. -/
def blockInputs (o : ByteOrder) (H : Digest) (junk : ℕ → Hash) (block : Mem) : List Bytes :=
  block.slice 0 sizeBlockHeader ::
    rootInputs o H junk (block.shift posBlockBody) (blockGetTxCount o block)

/-- Two walks that meet the same transactions go over the same bytes. -/
theorem walk_agree {o : ByteOrder} {m m' : Mem} : ∀ {n c : ℕ}, txEnd o m n c < 2 ^ 32 →
    (cursorLoop o m n (UInt32.ofNat c)).1.map (fun c => txBytes o (m.shift c.toNat)) =
      (cursorLoop o m' n (UInt32.ofNat c)).1.map (fun c => txBytes o (m'.shift c.toNat)) →
    txEnd o m' n c = txEnd o m n c ∧ ∀ i, c ≤ i → i < txEnd o m n c → m i = m' i := by
  intro n
  induction n with
  | zero =>
      intro c _ _
      exact ⟨rfl, fun i hlo hhi => absurd hhi (Nat.not_lt.mpr hlo)⟩
  | succ n ih =>
      intro c hbound h
      have hc : (UInt32.ofNat c).toNat = c :=
        UInt32.toNat_ofNat_of_lt' (Nat.lt_of_le_of_lt (le_txEnd o m (n + 1) c) hbound)
      rw [cursorLoop, cursorLoop, List.map_cons, List.map_cons, List.cons.injEq, hc] at h
      obtain ⟨hfirst, hrest⟩ := h
      have hsize : txGetSize o (m.shift c) = txGetSize o (m'.shift c) := by
        have hlength := congrArg List.length hfirst
        rwa [txBytes, txBytes, Mem.slice_length, Mem.slice_length] at hlength
      rw [← hsize, ← UInt32.ofNat_add] at hrest
      obtain ⟨hend, hagree⟩ := ih hbound hrest
      rw [txEnd, txEnd, ← hsize]
      refine ⟨hend, ?_⟩
      intro i hlo hhi
      by_cases hin : i < c + txGetSize o (m.shift c)
      · rw [txBytes, txBytes, ← hsize, Mem.slice_shift, Mem.slice_shift] at hfirst
        have hbyte := Mem.slice_eq_iff.mp hfirst (i - c) (by omega)
        rwa [Nat.add_zero, Nat.add_sub_cancel' hlo] at hbyte
      · exact hagree i (Nat.not_lt.mp hin) hhi

/-- Roots of as many transactions. -/
theorem bodyTxs_of_root {o : ByteOrder} {H : Digest} {junk₁ junk₂ : ℕ → Hash} {txs₁ txs₂ : Mem}
    {txCount : UInt32} (h1 : 1 ≤ txCount)
    (hroot : computeMerkleRoot o H junk₁ txs₁ txCount = computeMerkleRoot o H junk₂ txs₂ txCount) :
    bodyTxs o txs₁ txCount.toNat = bodyTxs o txs₂ txCount.toNat ∨
      Collides H (rootInputs o H junk₁ txs₁ txCount) (rootInputs o H junk₂ txs₂ txCount) := by
  obtain ⟨-, hroot₁, hlog₁⟩ := merkleRun_spec o H junk₁ txs₁ txCount h1
  obtain ⟨-, hroot₂, hlog₂⟩ := merkleRun_spec o H junk₂ txs₂ txCount h1
  have hred := hroot₁.symm.trans ((congrArg (fun r => [r]) hroot).trans hroot₂)
  rw [leafHashes_eq, leafHashes_eq] at hred
  have hlength : ((bodyTxs o txs₁ txCount.toNat).map H.sum).length =
      ((bodyTxs o txs₂ txCount.toNat).map H.sum).length := by
    rw [List.length_map, List.length_map, bodyTxs_length, bodyTxs_length]
  rcases reduce_binding (pairHash H) _ hlength hred with hleaves | hpairs
  · exact bodyTxs_eq_or_collides hleaves (fun t ht => ht) fun t ht => ht
  · rw [← leafHashes_eq, ← leafHashes_eq, ← hlog₁, ← hlog₂] at hpairs
    exact .inr (collides_of_pairs hpairs)

/-- **The block hash binds the block.** Two blocks whose roots are those of their bodies,
the first with a transaction and of less than 2³² bytes, have the same hash. Then they are
of the same size and have the same bytes, or two different byte strings that were hashed
for them have the same hash. -/
theorem blockHash_binds_block (o : ByteOrder) (H : Digest) (junk₁ junk₂ : ℕ → Hash)
    (block₁ block₂ : Mem) (h1 : 1 ≤ blockGetTxCount o block₁)
    (hfits : blockSize o block₁ < 2 ^ 32)
    (hroot₁ : CommitsToBody o H junk₁ block₁) (hroot₂ : CommitsToBody o H junk₂ block₂)
    (hhash : blockComputeHash H block₁ = blockComputeHash H block₂) :
    (blockSize o block₂ = blockSize o block₁ ∧
      block₁.slice 0 (blockSize o block₁) = block₂.slice 0 (blockSize o block₁)) ∨
    Collides H (blockInputs o H junk₁ block₁) (blockInputs o H junk₂ block₂) := by
  rcases eq_or_collides H (List.mem_cons_self ..) (List.mem_cons_self ..) hhash with hheader | hc
  · have hcount := blockGetTxCount_of_header_eq hheader o
    have hfield : block₁.slice posBlockMerkleRoot sizeSha256 =
        block₂.slice posBlockMerkleRoot sizeSha256 :=
      (Mem.agree_iff_slice.mpr hheader).slice (by decide)
    rw [CommitsToBody, hfield] at hroot₁
    have hroot := Subtype.ext (hroot₁.symm.trans hroot₂)
    rw [hcount] at hroot h1
    rcases bodyTxs_of_root h1 hroot with htxs | ⟨x, hx, y, hy, hc⟩
    · have hbound : txEnd o (block₁.shift posBlockBody) (blockGetTxCount o block₂).toNat 0 <
          2 ^ 32 := by
        rw [blockSize_eq, hcount] at hfits
        exact Nat.lt_of_le_of_lt (Nat.le_add_left _ _) hfits
      obtain ⟨hend, hagree⟩ := walk_agree hbound htxs
      have hsize : blockSize o block₂ = blockSize o block₁ := by
        rw [blockSize_eq, blockSize_eq, hcount, hend]
      refine .inl ⟨hsize, ?_⟩
      rw [← Mem.agree_iff_slice]
      intro i hi
      by_cases hin : i < sizeBlockHeader
      · exact byte_of_header_eq hheader hin
      · obtain ⟨k, rfl⟩ := Nat.exists_eq_add_of_le (Nat.not_lt.mp hin)
        rw [blockSize_eq, hcount] at hi
        exact hagree k (Nat.zero_le k) (Nat.lt_of_add_lt_add_left hi)
    · right
      rw [blockInputs, blockInputs, hcount]
      exact ⟨x, List.mem_cons_of_mem _ hx, y, List.mem_cons_of_mem _ hy, hc⟩
  · exact .inr hc

/-- The root depends on the body alone. -/
theorem computeMerkleRoot_congr {o : ByteOrder} {H : Digest} {junk junk' : ℕ → Hash}
    {txs txs' : Mem} {txCount : UInt32} (h1 : 1 ≤ txCount)
    (hfits : txEnd o txs txCount.toNat 0 < 2 ^ 32)
    (h : Mem.Agree (txEnd o txs txCount.toNat 0) txs txs') :
    computeMerkleRoot o H junk txs txCount = computeMerkleRoot o H junk' txs' txCount := by
  have hleaves : leafHashes o H txs' txCount.toNat = leafHashes o H txs txCount.toNat :=
    leafHashes_congr hfits h
  obtain ⟨-, hroot, -⟩ := merkleRun_spec o H junk txs txCount h1
  obtain ⟨-, hroot', -⟩ := merkleRun_spec o H junk' txs' txCount h1
  rw [← hleaves, ← hroot'] at hroot
  exact List.singleton_inj.mp hroot

theorem blockGetTxCount_blockUpdateRoot (o : ByteOrder) (H : Digest) (junk : ℕ → Hash)
    (block : Mem) :
    blockGetTxCount o (blockUpdateRoot o H junk block) = blockGetTxCount o block := by
  have hroot := (computeMerkleRoot o H junk (block.shift posBlockBody) (blockGetTxCount o block)).2
  exact congrArg (btoui o) (Mem.shift_write (by rw [hroot]; simp))

theorem blockSize_blockUpdateRoot (o : ByteOrder) (H : Digest) (junk : ℕ → Hash) (block : Mem) :
    blockSize o (blockUpdateRoot o H junk block) = blockSize o block := by
  have hroot := (computeMerkleRoot o H junk (block.shift posBlockBody) (blockGetTxCount o block)).2
  have hbody : (blockUpdateRoot o H junk block).shift posBlockBody = block.shift posBlockBody :=
    Mem.shift_write (by rw [hroot]; simp)
  rw [blockSize_eq, blockSize_eq, blockGetTxCount_blockUpdateRoot, hbody]

/-- What comes after a block is not part of it. -/
theorem CommitsToBody.congr {o : ByteOrder} {H : Digest} {junk : ℕ → Hash} {block block' : Mem}
    (h : CommitsToBody o H junk block) (h1 : 1 ≤ blockGetTxCount o block)
    (hfits : blockSize o block < 2 ^ 32)
    (hagree : Mem.Agree (blockSize o block) block block') (junk' : ℕ → Hash) :
    CommitsToBody o H junk' block' := by
  rw [blockSize_eq] at hagree hfits
  have hheader : Mem.Agree sizeBlockHeader block block' := hagree.mono (Nat.le_add_right _ _)
  have hcount := blockGetTxCount_of_header_eq (Mem.agree_iff_slice.mp hheader) o
  have hfield : block.slice posBlockMerkleRoot sizeSha256 =
      block'.slice posBlockMerkleRoot sizeSha256 := hheader.slice (by decide)
  rw [CommitsToBody, ← hfield, ← hcount, h]
  exact congrArg Subtype.val (computeMerkleRoot_congr h1
    (Nat.lt_of_le_of_lt (Nat.le_add_left _ _) hfits) (hagree.shift (Nat.le_refl _)))

/-- A block with one transaction of ten zeros, and its root. -/
def rootedBlock : Mem :=
  blockUpdateRoot .little sha256 (fun _ => sha256.sum []) fun i => if i = 79 then 1 else 0

theorem rootedBlock_count : blockGetTxCount .little rootedBlock = 1 :=
  blockGetTxCount_blockUpdateRoot ..

theorem rootedBlock_agree : Mem.Agree 200 rootedBlock (rootedBlock.write 200 [7]) :=
  fun _ hi => (Mem.write_before _ hi).symm

theorem rootedBlock_size : blockSize .little rootedBlock ≤ 200 := by
  rw [rootedBlock, blockSize_blockUpdateRoot]
  decide

/-- It has the hash of the same block with something else in memory behind it. -/
theorem blockHash_binds_block_oneTx :
    (blockSize .little (rootedBlock.write 200 [7]) = blockSize .little rootedBlock ∧
      rootedBlock.slice 0 (blockSize .little rootedBlock) =
        (rootedBlock.write 200 [7]).slice 0 (blockSize .little rootedBlock)) ∨
    Collides sha256 (blockInputs .little sha256 (fun _ => sha256.sum []) rootedBlock)
      (blockInputs .little sha256 (fun _ => sha256.sum [1]) (rootedBlock.write 200 [7])) := by
  have h1 : 1 ≤ blockGetTxCount .little rootedBlock := by
    rw [rootedBlock_count]
    decide
  have hroot : CommitsToBody .little sha256 (fun _ => sha256.sum []) rootedBlock :=
    commitsToBody_blockUpdateRoot ..
  have hfits : blockSize .little rootedBlock < 2 ^ 32 :=
    Nat.lt_of_le_of_lt rootedBlock_size (by decide)
  refine blockHash_binds_block .little sha256 _ _ _ _ h1 hfits hroot
    (hroot.congr h1 hfits (rootedBlock_agree.mono rootedBlock_size) _) ?_
  exact blockComputeHash_of_header_eq
    (Mem.agree_iff_slice.mp (rootedBlock_agree.mono (by decide))) sha256

end Freecoin
