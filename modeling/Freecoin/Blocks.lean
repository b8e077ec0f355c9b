import Freecoin.Transactions

/-!
# blocks.c: serialised blocks

The 83 header bytes come first, the transactions follow end to end. Every
walk over the body starts at the end of the header and advances by the size
of the transaction under the cursor.
-/

namespace Freecoin

open Lib

/-- `block_add_header(...)`; see `rTxGen` for the version field. -/
def blockAddHeader (version : UInt16) (time height : UInt32) (prevHash : Mem)
    (target : UInt8) (dest : Mem) : Mem :=
  (((((((dest.write posBlockVersion (ustob version)).write posBlockTime (uitob time)).write
    posBlockHeight (uitob height)).write posBlockPrevHash (prevHash.slice 0 sizeSha256)).write
    posBlockMerkleRoot (List.replicate sizeSha256 0)).write posBlockTarget [target]).write
    posBlockNonce (uitob 0)).write posBlockTxCount (uitob 0)

/-- `block_inc_nonce(block)`. -/
def blockIncNonce (o : ByteOrder) (block : Mem) : Mem :=
  let nonce := btoui o (block.shift posBlockNonce)
  block.write posBlockNonce (uitob (nonce + 1))

/-! ## Header fields

`block_get_height`, `block_get_tx_count` and `block_get_prev_hash` are not in
the repository; they read the field at its position, as the notes ask for. -/

def blockGetHeight (o : ByteOrder) (block : Mem) : UInt32 := btoui o (block.shift posBlockHeight)

def blockGetTxCount (o : ByteOrder) (block : Mem) : UInt32 := btoui o (block.shift posBlockTxCount)

def blockGetPrevHash (block : Mem) : Bytes := block.slice posBlockPrevHash sizeSha256

/-- `block_compute_hash(block, dest)`: the hash of the header. -/
def blockComputeHash (H : Digest) (block : Mem) : Bytes := H (block.slice 0 sizeBlockHeader)

/-! Two blocks with the same header agree on all of these. -/

section SameHeader

variable {block block' : Mem} (h : block.slice 0 sizeBlockHeader = block'.slice 0 sizeBlockHeader)

include h

theorem byte_of_header_eq {i : ℕ} (hi : i < 83) : block i = block' i := by
  simpa using Mem.slice_eq_iff.mp h i hi

theorem blockGetHeight_of_header_eq (o : ByteOrder) :
    blockGetHeight o block = blockGetHeight o block' :=
  btoui_congr fun i hi => byte_of_header_eq h (show 6 + i < 83 by omega)

theorem blockGetTxCount_of_header_eq (o : ByteOrder) :
    blockGetTxCount o block = blockGetTxCount o block' :=
  btoui_congr fun i hi => byte_of_header_eq h (show 79 + i < 83 by omega)

theorem blockGetPrevHash_of_header_eq : blockGetPrevHash block = blockGetPrevHash block' :=
  Mem.slice_eq_iff.mpr fun i hi => byte_of_header_eq h (by
    simp only [posBlockPrevHash, sizeSha256] at hi ⊢
    omega)

theorem blockComputeHash_of_header_eq (H : Digest) :
    blockComputeHash H block = blockComputeHash H block' := by
  rw [blockComputeHash, blockComputeHash, h]

end SameHeader

/-- A record of at least 83 bytes shows its own header wherever it is read to. -/
theorem header_load {m p : Mem} {r : Bytes} (hr : 83 ≤ r.length) :
    (m.load r).slice 0 sizeBlockHeader = (p.load r).slice 0 sizeBlockHeader :=
  Mem.slice_load_inside m p (by simpa using hr)

theorem header_ofBytes_slice (m : Mem) {n : ℕ} (hn : 83 ≤ n) :
    (Mem.ofBytes (m.slice 0 n)).slice 0 sizeBlockHeader = m.slice 0 sizeBlockHeader := by
  have h := header_load (m := fun _ => 0) (p := m) (r := m.slice 0 n) (by simpa using hn)
  rwa [Mem.load_slice_self] at h

/-! ## Walking the body

The cursor of every loop over a body is a `uint`: `cursorLoop`. Where the transactions
of a body lie is a matter of offsets that do not wrap, and a walk that ends below
2³² visits just these. `blockTxs` and `blockComputeSize` go by them: before its cursor
wraps a walk has read 4 GiB past the block, and all buffers for blocks are shorter. -/

/-- `n` passes of `cursor += tx_get_size(&m[cursor])` with a `uint` cursor: the
offsets visited, and where the cursor ends. -/
def cursorLoop (o : ByteOrder) (m : Mem) : ℕ → UInt32 → List UInt32 × UInt32
  | 0, cursor => ([], cursor)
  | n + 1, cursor =>
      let rest := cursorLoop o m n (cursor + UInt32.ofNat (txGetSize o (m.shift cursor.toNat)))
      (cursor :: rest.1, rest.2)

/-- The offsets a walk of `n` transactions visits from `cursor` on. -/
def txCursors (o : ByteOrder) (block : Mem) : ℕ → ℕ → List ℕ
  | 0, _ => []
  | n + 1, cursor => cursor :: txCursors o block n (cursor + txGetSize o (block.shift cursor))

/-- Where the cursor stands after `n` transactions. -/
def txEnd (o : ByteOrder) (block : Mem) : ℕ → ℕ → ℕ
  | 0, cursor => cursor
  | n + 1, cursor => txEnd o block n (cursor + txGetSize o (block.shift cursor))

/-- The transactions of a block, as the loops of `data_blocks_add` and
`data_blocks_revert` visit them. -/
def blockTxs (o : ByteOrder) (block : Mem) : List Mem :=
  (txCursors o block (blockGetTxCount o block).toNat posBlockBody).map block.shift

/-- The hashes of the transactions of a block. -/
def blockTxHashes (o : ByteOrder) (H : Digest) (block : Mem) : List Bytes :=
  (blockTxs o block).map (txComputeHash o H)

/-- `block_compute_size(block)`. The count is initialised with the *address*
of the count field converted to `uchar`, so the walk covers as many
transactions as the low byte `addr` of that address says. -/
def blockComputeSize (o : ByteOrder) (addr : UInt8) (block : Mem) : ℕ :=
  txEnd o block addr.toNat sizeBlockHeader

/-- `block_add_tx(block, tx)`; `none` is the null pointer. -/
def blockAddTx (o : ByteOrder) (addr : UInt8) (block : Mem) : Option MTx → Except Fault Mem
  | none => .error .badPointer
  | some tx =>
      let size := blockComputeSize o addr block
      if maxBlockSize ≤ size + tx.size then .error (.fatal "Block overflow during block_add_tx")
      else
        let block := block.write size tx.bytes
        let txCount := btoui o (block.shift posBlockTxCount)
        .ok (block.write posBlockTxCount (uitob (txCount + 1)))

theorem le_txEnd (o : ByteOrder) (block : Mem) :
    ∀ n cursor, cursor ≤ txEnd o block n cursor := by
  intro n
  induction n with
  | zero => intro cursor; exact Nat.le_refl _
  | succ n ih =>
      intro cursor
      exact Nat.le_trans (Nat.le_add_right _ _) (ih _)

/-- As long as the cursor does not wrap around, the loop visits where the transactions lie. -/
theorem cursorLoop_eq (o : ByteOrder) (m : Mem) :
    ∀ (n pos : ℕ), txEnd o m n pos < 2 ^ 32 →
      cursorLoop o m n (UInt32.ofNat pos) =
        ((txCursors o m n pos).map UInt32.ofNat, UInt32.ofNat (txEnd o m n pos)) := by
  intro n
  induction n with
  | zero => intro pos _; rfl
  | succ n ih =>
      intro pos hend
      have hpos : (UInt32.ofNat pos).toNat = pos := by
        have hle := le_txEnd o m (n + 1) pos
        exact UInt32.toNat_ofNat_of_lt' (Nat.lt_of_le_of_lt hle hend)
      rw [cursorLoop, hpos, ← UInt32.ofNat_add, ih _ hend]
      rfl

/-- What a walk below 2³² bytes reads. -/
theorem cursorLoop_map_shift {o : ByteOrder} {m : Mem} {n : ℕ} {α : Type} {f : Mem → α} :
    ∀ {pos : ℕ}, txEnd o m n pos < 2 ^ 32 →
      (cursorLoop o m n (UInt32.ofNat pos)).1.map (fun c => f (m.shift c.toNat)) =
        (txCursors o m n pos).map fun c => f (m.shift c) := by
  induction n with
  | zero => intro pos _; rfl
  | succ n ih =>
      intro pos hend
      have hpos : (UInt32.ofNat pos).toNat = pos :=
        UInt32.toNat_ofNat_of_lt' (Nat.lt_of_le_of_lt (le_txEnd o m (n + 1) pos) hend)
      rw [cursorLoop, txCursors, List.map_cons, List.map_cons, hpos, ← UInt32.ofNat_add, ih hend]

theorem cursorLoop_length (o : ByteOrder) (m : Mem) :
    ∀ (n : ℕ) (cursor : UInt32), (cursorLoop o m n cursor).1.length = n := by
  intro n
  induction n with
  | zero => intro cursor; rfl
  | succ n ih =>
      intro cursor
      rw [cursorLoop, List.length_cons, ih]

/-- Whatever the walk covers, it starts after the header. -/
theorem header_le_blockComputeSize (o : ByteOrder) (addr : UInt8) (block : Mem) :
    sizeBlockHeader ≤ blockComputeSize o addr block :=
  le_txEnd o block addr.toNat sizeBlockHeader

/-- A walk sees nothing past its end. -/
theorem txEnd_congr {o : ByteOrder} {block block' : Mem} :
    ∀ {n cursor : ℕ}, Mem.Agree (txEnd o block n cursor) block block' →
      txEnd o block' n cursor = txEnd o block n cursor ∧
      (txCursors o block' n cursor).map (fun c => txBytes o (block'.shift c)) =
        (txCursors o block n cursor).map fun c => txBytes o (block.shift c) := by
  intro n
  induction n with
  | zero => intro cursor _; exact ⟨rfl, rfl⟩
  | succ n ih =>
      intro cursor h
      have hend := le_txEnd o block n (cursor + txGetSize o (block.shift cursor))
      have htx : Mem.Agree (txGetSize o (block.shift cursor)) (block.shift cursor)
          (block'.shift cursor) := h.shift hend
      have hsize := txGetSize_congr o (htx.mono (header_le_txGetSize o _))
      obtain ⟨hlast, hrest⟩ := ih h
      rw [txEnd, txEnd, txCursors, txCursors, List.map_cons, List.map_cons, ← hsize, hlast, hrest,
        txBytes_congr htx]
      exact ⟨rfl, rfl⟩

end Freecoin
