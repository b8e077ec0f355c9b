import Freecoin.Blocks
import Freecoin.Lib.PairReduction

/-!
# transactions.c: compute_merkle_root

The reduction works in place: `tree_hashes` is an array of pointers into a
heap of hash buffers, one spare `buffer` takes each new hash and is then
swapped with the slot it replaces. The model keeps the pointers. A level is
correct because the slots and the spare buffer always point at different
buffers, and because the slot written in round `k` was read in round `k / 2`
or is read in this very round, never later.
-/

namespace Freecoin

open Lib

/-- The content of a `SIZE_SHA256` buffer. -/
abbrev Hash : Type := { b : Bytes // b.length = sizeSha256 }

/-- The digest as the content of a hash buffer. -/
def Digest.sum (H : Digest) (m : Bytes) : Hash := ⟨H m, H.hash_length m⟩

/-- The working memory of `compute_merkle_root`: the hash buffers by address,
the pointers, and the inputs of the pair hashes computed so far. -/
structure TreeState : Type where
  heap : ℕ → Hash
  treeHashes : ℕ → ℕ
  buffer : ℕ
  hashed : List (Hash × Hash)

namespace TreeState

/-- The hash that `tree_hashes[i]` points at. -/
def leaf (s : TreeState) (i : ℕ) : Hash := s.heap (s.treeHashes i)

/-- The first `n` hashes. -/
def leaves (s : TreeState) (n : ℕ) : List Hash := (List.range n).map s.leaf

end TreeState

/-- The 64 bytes hashed for a pair: two `sha256_update` calls of 32 bytes. -/
def pairBytes (p : Hash × Hash) : Bytes := p.1.1 ++ p.2.1

/-- The hash of a pair. -/
def pairHash (H : Digest) (p : Hash × Hash) : Hash := H.sum (pairBytes p)

/-- Hash slots `i` and `j` into `buffer`, then swap `buffer` and slot `k`. -/
def hashPair (H : Digest) (i j k : ℕ) (s : TreeState) : TreeState :=
  let p := (s.leaf i, s.leaf j)
  { heap := Function.update s.heap s.buffer (pairHash H p)
    treeHashes := Function.update s.treeHashes k s.buffer
    buffer := s.treeHashes k
    hashed := s.hashed ++ [p] }

/-- `for (k=0,i=0; k<pair_count; k++,i+=2)`. -/
def pairLoop (H : Digest) : ℕ → TreeState → TreeState
  | 0, s => s
  | k + 1, s => hashPair H (2 * k) (2 * k + 1) k (pairLoop H k s)

/-- One pass of `while (leaf_count > 1)`, with the new `leaf_count`. -/
def treeLevel (H : Digest) (leafCount : ℕ) (s : TreeState) : TreeState × ℕ :=
  let remainder := leafCount % 2
  let pairCount := (leafCount - remainder) / 2
  let s := pairLoop H pairCount s
  if remainder ≠ 0 then
    (hashPair H (leafCount - 1) (leafCount - 1) pairCount s, pairCount + 1)
  else (s, pairCount)

/-- The whole loop; `fuel` bounds the number of passes. -/
def treeLoop (H : Digest) : ℕ → ℕ → TreeState → TreeState × ℕ
  | 0, leafCount, s => (s, leafCount)
  | fuel + 1, leafCount, s =>
      if leafCount ≤ 1 then (s, leafCount)
      else treeLoop H fuel (treeLevel H leafCount s).2 (treeLevel H leafCount s).1

/-- The leaf hashes of a body of `n` transactions, as the loop over `body_cursor` comes to
them. -/
def leafHashes (o : ByteOrder) (H : Digest) (txs : Mem) (n : ℕ) : List Hash :=
  (cursorLoop o txs n 0).1.map fun c => H.sum (txBytes o (txs.shift c.toNat))

/-- The state when the leaves are in place: `tree_hashes[i]` is the `i`-th
buffer allocated and `buffer` the one after them. `junk` is what the
allocator left in the buffers. -/
def treeInit (o : ByteOrder) (H : Digest) (junk : ℕ → Hash) (txs : Mem) (n : ℕ) : TreeState where
  heap := fun i => ((leafHashes o H txs n)[i]?).getD (junk i)
  treeHashes := id
  buffer := n
  hashed := []

/-- The run of `compute_merkle_root(txs, tx_count, out)`. There are never more
passes than leaves, so the fuel is enough: `merkleRun_spec` shows that one leaf is left. -/
def merkleRun (o : ByteOrder) (H : Digest) (junk : ℕ → Hash) (txs : Mem) (txCount : UInt32) :
    TreeState × ℕ :=
  treeLoop H txCount.toNat txCount.toNat (treeInit o H junk txs txCount.toNat)

/-- The root that `compute_merkle_root` copies to `out`. -/
def computeMerkleRoot (o : ByteOrder) (H : Digest) (junk : ℕ → Hash) (txs : Mem)
    (txCount : UInt32) : Hash :=
  (merkleRun o H junk txs txCount).1.leaf 0

/-- `block_update_root(block)`, with `dest` read as `block`. -/
def blockUpdateRoot (o : ByteOrder) (H : Digest) (junk : ℕ → Hash) (block : Mem) : Mem :=
  block.write posBlockMerkleRoot
    (computeMerkleRoot o H junk (block.shift posBlockBody) (blockGetTxCount o block)).1

/-- The 64-byte inputs hashed above the leaves. -/
def merkleInputs (o : ByteOrder) (H : Digest) (junk : ℕ → Hash) (txs : Mem)
    (txCount : UInt32) : List Bytes :=
  (merkleRun o H junk txs txCount).1.hashed.map pairBytes

theorem pairBytes_length (p : Hash × Hash) : (pairBytes p).length = 64 := by
  rw [pairBytes, List.length_append, p.1.2, p.2.2]
  rfl

theorem pairBytes_injective {p q : Hash × Hash} (h : pairBytes p = pairBytes q) : p = q := by
  obtain ⟨h₁, h₂⟩ := List.append_inj h (p.1.2.trans q.1.2.symm)
  exact Prod.ext (Subtype.ext h₁) (Subtype.ext h₂)

/-! ## No two pointers share a buffer -/

/-- The first `n` slots and the spare buffer point at different buffers. -/
structure Separate (n : ℕ) (s : TreeState) : Prop where
  slots : ∀ i < n, ∀ j < n, s.treeHashes i = s.treeHashes j → i = j
  spare : ∀ i < n, s.treeHashes i ≠ s.buffer

theorem Separate.mono {n m : ℕ} {s : TreeState} (h : Separate n s) (hm : m ≤ n) :
    Separate m s :=
  ⟨fun i hi j hj => h.slots i (by omega) j (by omega), fun i hi => h.spare i (by omega)⟩

theorem hashPair_separate {H : Digest} {n i j k : ℕ} {s : TreeState} (h : Separate n s)
    (hk : k < n) : Separate n (hashPair H i j k s) := by
  constructor
  · intro a ha b hb heq
    simp only [hashPair, Function.update_apply] at heq
    split at heq <;> split at heq
    · rename_i hak hbk
      rw [hak, hbk]
    · exact absurd heq.symm (h.spare b hb)
    · exact absurd heq (h.spare a ha)
    · exact h.slots a ha b hb heq
  · intro a ha
    simp only [hashPair, Function.update_apply]
    split
    · exact (h.spare k hk).symm
    · rename_i hak
      exact fun heq => hak (h.slots a ha k hk heq)

/-- A round changes the slot it writes and no other. -/
theorem hashPair_leaf {H : Digest} {n i j k : ℕ} {s : TreeState} (h : Separate n s)
    {a : ℕ} (ha : a < n) :
    (hashPair H i j k s).leaf a =
      if a = k then pairHash H (s.leaf i, s.leaf j) else s.leaf a := by
  simp only [TreeState.leaf, hashPair, Function.update_apply]
  by_cases hak : a = k
  · simp [hak]
  · simp [hak, h.spare a ha]

/-! ## One level -/

/-- After `k` rounds the first `k` slots hold the pair hashes of the original
slots and the rest is untouched. -/
theorem pairLoop_spec {H : Digest} {n : ℕ} {s : TreeState} (h : Separate n s) :
    ∀ k, 2 * k ≤ n → Separate n (pairLoop H k s) ∧
      (∀ a < n, (pairLoop H k s).leaf a =
        if a < k then pairHash H (s.leaf (2 * a), s.leaf (2 * a + 1)) else s.leaf a) ∧
      (pairLoop H k s).hashed =
        s.hashed ++ (List.range k).map fun a => (s.leaf (2 * a), s.leaf (2 * a + 1)) := by
  intro k
  induction k with
  | zero =>
      intro _
      exact ⟨h, fun a _ => by simp [pairLoop], by simp [pairLoop]⟩
  | succ k ih =>
      intro hk
      obtain ⟨hsep, hleaf, hlog⟩ := ih (by omega)
      -- the two slots read in round `k` lie at or above `k`, so they still hold the old hashes
      have hread : ∀ a, k ≤ a → a < n → (pairLoop H k s).leaf a = s.leaf a := by
        intro a hka han
        rw [hleaf a han, if_neg (by omega)]
      have h0 := hread (2 * k) (by omega) (by omega)
      have h1 := hread (2 * k + 1) (by omega) (by omega)
      refine ⟨hashPair_separate hsep (by omega), ?_, ?_⟩
      · intro a ha
        rw [pairLoop, hashPair_leaf hsep ha, h0, h1]
        by_cases hak : a = k
        · subst hak
          rw [if_pos rfl, if_pos (by omega)]
        · rw [if_neg hak, hleaf a ha]
          by_cases hlt : a < k
          · rw [if_pos hlt, if_pos (by omega)]
          · rw [if_neg hlt, if_neg (by omega)]
      · rw [pairLoop, hashPair, hlog, h0, h1, List.range_succ, List.map_append,
          List.append_assoc]
        rfl

theorem leaves_getElem? (s : TreeState) (n i : ℕ) :
    (s.leaves n)[i]? = if i < n then some (s.leaf i) else none := by
  by_cases h : i < n
  · simp [TreeState.leaves, h]
  · simp [TreeState.leaves, h]

theorem leaves_length (s : TreeState) (n : ℕ) : (s.leaves n).length = n := by
  simp [TreeState.leaves]

/-- The pairs of the current leaves, by position. -/
theorem pairs_leaves_getElem? (s : TreeState) (n a : ℕ) :
    (pairs (s.leaves n))[a]? =
      if 2 * a + 1 < n then some (s.leaf (2 * a), s.leaf (2 * a + 1))
      else if 2 * a < n then some (s.leaf (2 * a), s.leaf (2 * a)) else none := by
  rw [pairs_getElem?, leaves_getElem?, leaves_getElem?]
  by_cases h1 : 2 * a + 1 < n
  · simp [h1, show 2 * a < n by omega]
  · by_cases h0 : 2 * a < n
    · simp [h0, h1]
    · simp [h0, h1]

/-- A level whose slots hold the pair hashes, slot by slot, is `pairUp`. -/
theorem leaves_eq_pairUp {H : Digest} {n m : ℕ} {s t : TreeState} (hm : m = (n + 1) / 2)
    (h : ∀ a < m, t.leaf a = pairHash H (s.leaf (2 * a),
      if 2 * a + 1 < n then s.leaf (2 * a + 1) else s.leaf (2 * a))) :
    t.leaves m = pairUp (pairHash H) (s.leaves n) := by
  apply List.ext_getElem?
  intro a
  rw [leaves_getElem?, pairUp, List.getElem?_map, pairs_leaves_getElem?]
  by_cases ha : a < m
  · rw [if_pos ha, h a ha]
    by_cases h1 : 2 * a + 1 < n
    · simp [h1]
    · simp [h1, show 2 * a < n by omega]
  · rw [if_neg ha, if_neg (by omega), if_neg (by omega)]
    rfl

theorem map_pairs_eq {n k : ℕ} (s : TreeState) (hk : 2 * k = n) :
    (List.range k).map (fun a => (s.leaf (2 * a), s.leaf (2 * a + 1))) = pairs (s.leaves n) := by
  apply List.ext_getElem?
  intro a
  rw [pairs_leaves_getElem?]
  by_cases ha : a < k
  · simp [ha, show 2 * a + 1 < n by omega]
  · simp [ha, show ¬ 2 * a + 1 < n by omega, show ¬ 2 * a < n by omega]

theorem map_pairs_eq_odd {n k : ℕ} (s : TreeState) (hk : 2 * k + 1 = n) :
    (List.range k).map (fun a => (s.leaf (2 * a), s.leaf (2 * a + 1))) ++
      [(s.leaf (n - 1), s.leaf (n - 1))] = pairs (s.leaves n) := by
  apply List.ext_getElem?
  intro a
  rw [pairs_leaves_getElem?]
  rcases Nat.lt_trichotomy a k with ha | rfl | ha
  · rw [List.getElem?_append_left (by simpa using ha)]
    simp [ha, show 2 * a + 1 < n by omega]
  · rw [List.getElem?_append_right (by simp), if_neg (by omega), if_pos (by omega)]
    simp [show n - 1 = 2 * a by omega]
  · rw [List.getElem?_append_right (by simp; omega), if_neg (by omega), if_neg (by omega)]
    simp [show a - k ≠ 0 by omega]

/-- **One level in place is one level of the pair reduction.** -/
theorem treeLevel_spec {H : Digest} {n : ℕ} {s : TreeState} (h : Separate n s) (hn : 1 ≤ n) :
    (treeLevel H n s).2 = (n + 1) / 2 ∧
    Separate ((n + 1) / 2) (treeLevel H n s).1 ∧
    (treeLevel H n s).1.leaves ((n + 1) / 2) = pairUp (pairHash H) (s.leaves n) ∧
    (treeLevel H n s).1.hashed = s.hashed ++ pairs (s.leaves n) := by
  obtain ⟨hsep, hleaf, hlog⟩ := pairLoop_spec (H := H) h ((n - n % 2) / 2) (by omega)
  rcases Nat.mod_two_eq_zero_or_one n with heven | hodd
  · have hk : (n - n % 2) / 2 = (n + 1) / 2 := by omega
    have hlevel : treeLevel H n s = (pairLoop H ((n + 1) / 2) s, (n + 1) / 2) := by
      simp only [treeLevel, heven, ← hk, ne_eq, not_true_eq_false, if_false]
    rw [hk] at hsep hleaf hlog
    rw [hlevel]
    refine ⟨rfl, hsep.mono (by omega), leaves_eq_pairUp rfl ?_, ?_⟩
    · intro a ha
      rw [hleaf a (by omega), if_pos ha, if_pos (by omega)]
    · rw [hlog, map_pairs_eq (n := n) s (by omega)]
  · have hk : (n - n % 2) / 2 + 1 = (n + 1) / 2 := by omega
    have hlevel : treeLevel H n s =
        (hashPair H (n - 1) (n - 1) ((n - n % 2) / 2) (pairLoop H ((n - n % 2) / 2) s),
          (n - n % 2) / 2 + 1) := by
      simp only [treeLevel, hodd, ne_eq, one_ne_zero, not_false_eq_true, if_true]
    -- the last leaf lies above every slot the pair loop has written
    have hlast : (pairLoop H ((n - n % 2) / 2) s).leaf (n - 1) = s.leaf (n - 1) := by
      rw [hleaf (n - 1) (by omega), if_neg (by omega)]
    rw [hlevel, hk]
    refine ⟨rfl, (hashPair_separate hsep (by omega)).mono (by omega), leaves_eq_pairUp rfl ?_, ?_⟩
    · intro a ha
      rw [hashPair_leaf hsep (by omega), hlast]
      by_cases hak : a = (n - n % 2) / 2
      · rw [if_pos hak, if_neg (by omega), show n - 1 = 2 * a by omega]
      · rw [if_neg hak, hleaf a (by omega), if_pos (by omega), if_pos (by omega)]
    · rw [hashPair, hlog, hlast, List.append_assoc, map_pairs_eq_odd s (by omega)]

/-! ## The whole run -/

/-- **The loop is the pair reduction**, in its result and in what it hashes. -/
theorem treeLoop_spec {H : Digest} : ∀ (fuel : ℕ) {n : ℕ} {s : TreeState},
    Separate n s → 1 ≤ n → n ≤ fuel →
      (treeLoop H fuel n s).2 = 1 ∧
      (treeLoop H fuel n s).1.leaves 1 = reduce (pairHash H) fuel (s.leaves n) ∧
      (treeLoop H fuel n s).1.hashed = s.hashed ++ reducePairs (pairHash H) fuel (s.leaves n) := by
  intro fuel
  induction fuel with
  | zero => intro n s _ h1 h0; omega
  | succ fuel ih =>
      intro n s hsep h1 hfuel
      have hlen := leaves_length s n
      by_cases hone : n ≤ 1
      · obtain rfl : n = 1 := by omega
        simp [treeLoop, reduce, reducePairs, hlen]
      · obtain ⟨hcount, hsep', hleaves, hlog⟩ := treeLevel_spec (H := H) hsep h1
        have hstep := ih hsep' (by omega) (by omega)
        rw [treeLoop, if_neg hone, hcount, reduce, reducePairs, hlen, if_neg hone, if_neg hone,
          ← hleaves]
        obtain ⟨hone', hroot, hlogs⟩ := hstep
        refine ⟨hone', hroot, ?_⟩
        rw [hlogs, hlog, List.append_assoc]

theorem treeInit_separate (o : ByteOrder) (H : Digest) (junk : ℕ → Hash) (txs : Mem) (n : ℕ) :
    Separate n (treeInit o H junk txs n) :=
  ⟨fun _ _ _ _ h => h, fun _ hi h => absurd h (Nat.ne_of_lt hi)⟩

theorem treeInit_leaves (o : ByteOrder) (H : Digest) (junk : ℕ → Hash) (txs : Mem) (n : ℕ) :
    (treeInit o H junk txs n).leaves n = leafHashes o H txs n := by
  have hlen : (leafHashes o H txs n).length = n := by simp [leafHashes, cursorLoop_length]
  apply List.ext_getElem?
  intro i
  rw [leaves_getElem?]
  by_cases hi : i < n
  · have hget := List.getElem?_eq_getElem (show i < (leafHashes o H txs n).length by omega)
    rw [if_pos hi, hget]
    simp only [TreeState.leaf, treeInit, id_eq]
    rw [hget]
    rfl
  · rw [if_neg hi, List.getElem?_eq_none (by omega)]

/-- The run in terms of the reduction of the leaf hashes. -/
theorem merkleRun_spec (o : ByteOrder) (H : Digest) (junk : ℕ → Hash) (txs : Mem)
    (txCount : UInt32) (h1 : 1 ≤ txCount.toNat) :
    (merkleRun o H junk txs txCount).2 = 1 ∧
    [computeMerkleRoot o H junk txs txCount] =
      reduce (pairHash H) txCount.toNat (leafHashes o H txs txCount.toNat) ∧
    (merkleRun o H junk txs txCount).1.hashed =
      reducePairs (pairHash H) txCount.toNat (leafHashes o H txs txCount.toNat) := by
  obtain ⟨hdone, hroot, hlog⟩ := treeLoop_spec (H := H) txCount.toNat
    (treeInit_separate o H junk txs txCount.toNat) h1 (Nat.le_refl _)
  rw [treeInit_leaves] at hroot hlog
  exact ⟨hdone, hroot, hlog⟩

/-- **A merkle root binds the leaves of a body of known length.** Equal roots
of two bodies with the same `tx_count` come from equal leaf hashes, or the two
computations hash different 64-byte pairs to the same value. -/
theorem computeMerkleRoot_binds_leaves (o : ByteOrder) (H : Digest) (junk₁ junk₂ : ℕ → Hash)
    (txs₁ txs₂ : Mem) (txCount : UInt32) (h1 : 1 ≤ txCount)
    (hroot : computeMerkleRoot o H junk₁ txs₁ txCount = computeMerkleRoot o H junk₂ txs₂ txCount) :
    leafHashes o H txs₁ txCount.toNat = leafHashes o H txs₂ txCount.toNat ∨
    ∃ x ∈ merkleInputs o H junk₁ txs₁ txCount, ∃ y ∈ merkleInputs o H junk₂ txs₂ txCount,
      x.length = 64 ∧ y.length = 64 ∧ x ≠ y ∧ H x = H y := by
  have hpos : 1 ≤ txCount.toNat := h1
  obtain ⟨-, hroot₁, hlog₁⟩ := merkleRun_spec o H junk₁ txs₁ txCount hpos
  obtain ⟨-, hroot₂, hlog₂⟩ := merkleRun_spec o H junk₂ txs₂ txCount hpos
  have hlen : (leafHashes o H txs₁ txCount.toNat).length =
      (leafHashes o H txs₂ txCount.toNat).length := by
    simp [leafHashes, cursorLoop_length]
  have hred := hroot₁.symm.trans ((congrArg (fun r => [r]) hroot).trans hroot₂)
  rcases reduce_binding (pairHash H) _ hlen hred with heq | ⟨p, hp, q, hq, hne, hsame⟩
  · exact Or.inl heq
  · refine Or.inr ⟨pairBytes p, ?_, pairBytes q, ?_, pairBytes_length p, pairBytes_length q,
      fun h => hne (pairBytes_injective h), congrArg Subtype.val hsame⟩
    · exact List.mem_map_of_mem (hlog₁ ▸ hp)
    · exact List.mem_map_of_mem (hlog₂ ▸ hq)

/-- The leaves of a body of less than 2³² bytes depend on these alone. -/
theorem leafHashes_congr {o : ByteOrder} {H : Digest} {txs txs' : Mem} {n : ℕ}
    (hfits : txEnd o txs n 0 < 2 ^ 32) (h : Mem.Agree (txEnd o txs n 0) txs txs') :
    leafHashes o H txs' n = leafHashes o H txs n := by
  have hread : ∀ {m : Mem}, txEnd o m n 0 < 2 ^ 32 → leafHashes o H m n =
      ((txCursors o m n 0).map fun c => txBytes o (m.shift c)).map H.sum := by
    intro m hm
    rw [leafHashes, List.map_map]
    exact cursorLoop_map_shift (f := fun tx => H.sum (txBytes o tx)) hm
  obtain ⟨hend, hbytes⟩ := txEnd_congr h
  rw [hread hfits, hread (hend ▸ hfits), hbytes]

/-- Three transactions of ten zeros, and anything after them. -/
theorem computeMerkleRoot_binds_leaves_three :
    leafHashes .little sha256 (fun _ => 0) 3 =
        leafHashes .little sha256 (fun i => if i < 30 then 0 else 1) 3 ∨
      ∃ x ∈ merkleInputs .little sha256 (fun _ => sha256.sum []) (fun _ => 0) 3,
        ∃ y ∈ merkleInputs .little sha256 (fun _ => sha256.sum [1])
            (fun i => if i < 30 then 0 else 1) 3,
          x.length = 64 ∧ y.length = 64 ∧ x ≠ y ∧ sha256 x = sha256 y := by
  have hleaves : leafHashes .little sha256 (fun i => if i < 30 then 0 else 1) 3 =
      leafHashes .little sha256 (fun _ => 0) 3 := by
    have hend : txEnd .little (fun _ => 0) 3 0 = 30 := rfl
    refine leafHashes_congr (by rw [hend]; decide) fun i hi => ?_
    rw [hend] at hi
    exact (if_pos hi).symm
  have hroot₁ := (merkleRun_spec .little sha256 (fun _ => sha256.sum []) (fun _ => 0)
    3 (by decide)).2.1
  have hroot₂ := (merkleRun_spec .little sha256 (fun _ => sha256.sum [1])
    (fun i => if i < 30 then 0 else 1) 3 (by decide)).2.1
  refine computeMerkleRoot_binds_leaves .little sha256 _ _ _ _ 3 (by decide) ?_
  refine List.singleton_inj.mp (hroot₁.trans (Eq.trans ?_ hroot₂.symm))
  exact congrArg _ hleaves.symm

end Freecoin
