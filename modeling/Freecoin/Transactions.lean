import Freecoin.Crypto

/-!
# transactions.c: serialised transactions

A transaction is ten header bytes, `in_count` inputs of 290 bytes and
`out_count` outputs of 36 bytes. `tx_get_size` and `tx_compute_size` are
called all over the program and defined nowhere; `m_tx_gen` carries the size
formula with the note that it belongs there, and that is how both are read.
`tx_compute_hash` is the hash of those bytes, the way `compute_merkle_root`
hashes its leaves.
-/

namespace Freecoin

open Lib

/-- `M_tx`: a transaction together with its hash and sizes. `raw` is what the
structure itself shows, two pointers and two sizes, when read as 32 bytes. -/
structure MTx : Type where
  hash : Bytes
  data : Bytes
  size : ℕ
  max : ℕ
  raw : Bytes
deriving DecidableEq

/-- The bytes `memcpy(.., tx->data, tx->size)` copies. -/
def MTx.bytes (tx : MTx) : Bytes := (Mem.ofBytes tx.data).slice 0 tx.size

/-- `tx_get_size(tx)`, also spelled `tx_compute_size(tx)`. -/
def txGetSize (o : ByteOrder) (tx : Mem) : ℕ :=
  sizeTxHeader + sizeTxInput * (btous o (tx.shift posTxInCount)).toNat
    + sizeTxOutput * (btous o (tx.shift posTxOutCount)).toNat

/-- The bytes of the transaction that `tx` points at. -/
def txBytes (o : ByteOrder) (tx : Mem) : Bytes := tx.slice 0 (txGetSize o tx)

/-- `tx_compute_hash(tx, dest)`. -/
def txComputeHash (o : ByteOrder) (H : Digest) (tx : Mem) : Bytes := H (txBytes o tx)

/-- The size of a transaction is in its header. -/
theorem txGetSize_congr (o : ByteOrder) {tx tx' : Mem} (h : Mem.Agree sizeTxHeader tx tx') :
    txGetSize o tx = txGetSize o tx' := by
  rw [txGetSize, txGetSize, btous_congr (h.shift (k := posTxInCount) (j := 2) (by simp)),
    btous_congr (h.shift (k := posTxOutCount) (j := 2) (by simp))]

theorem header_le_txGetSize (o : ByteOrder) (tx : Mem) : sizeTxHeader ≤ txGetSize o tx :=
  (Nat.le_add_right _ _).trans (Nat.le_add_right _ _)

theorem txBytes_congr {o : ByteOrder} {tx tx' : Mem} (h : Mem.Agree (txGetSize o tx) tx tx') :
    txBytes o tx = txBytes o tx' := by
  rw [txBytes, txBytes, ← txGetSize_congr o (h.mono (header_le_txGetSize o tx))]
  exact h.slice (Nat.le_of_eq (Nat.zero_add _))

/-- `r_tx_gen(...)`. The version field is given `__VERSION__`, which is not a
macro of this program but the compiler's, so its value is a parameter. -/
def rTxGen (version : UInt16) (inCount outCount : UInt16) (lockTime : UInt32)
    (ins outs dest : Mem) : Mem :=
  let sizeIns := sizeTxInput * inCount.toNat
  let sizeOuts := sizeTxOutput * outCount.toNat
  ((((((dest.write posTxVersion (ustob version)).write posTxInCount (ustob inCount)).write
    posTxOutCount (ustob outCount)).write posTxLockTime (uitob lockTime)).write
      posTxBody (ins.slice 0 sizeIns)).write (posTxBody + sizeIns) (outs.slice 0 sizeOuts))

/-- `m_tx_gen(...)`; `dest` is what `malloc` returned for `tx.data`. The result
is the memory of `tx.data` and its size. -/
def mTxGen (version : UInt16) (inCount outCount : UInt16) (lockTime : UInt32)
    (ins outs dest : Mem) : Except Fault (Mem × ℕ) :=
  let size := sizeTxHeader + sizeTxInput * inCount.toNat + sizeTxOutput * outCount.toNat
  if maxTxSize < size then .error (.fatal "Tx overflow")
  else .ok (rTxGen version inCount outCount lockTime ins outs dest, size)

/-- `m_tx_gen` copies as much as its counts say. -/
theorem mTxGen_congr {version inCount outCount : UInt16} {lockTime : UInt32}
    {ins outs ins' outs' : Mem} (dest : Mem)
    (h : sizeTxHeader + sizeTxInput * inCount.toNat + sizeTxOutput * outCount.toNat ≤ maxTxSize →
      Mem.Agree (sizeTxInput * inCount.toNat) ins ins' ∧
      Mem.Agree (sizeTxOutput * outCount.toNat) outs outs') :
    mTxGen version inCount outCount lockTime ins outs dest =
      mTxGen version inCount outCount lockTime ins' outs' dest := by
  rw [mTxGen, mTxGen]
  split
  · rfl
  · rename_i hsize
    obtain ⟨hins, houts⟩ := h (Nat.not_lt.mp hsize)
    rw [rTxGen, rTxGen, Mem.agree_iff_slice.mp hins, Mem.agree_iff_slice.mp houts]

/-! ### Where `r_tx_gen` puts things -/

section Gen

variable (version inCount outCount : UInt16) (lockTime : UInt32) (ins outs dest : Mem)

theorem rTxGen_inCount :
    (rTxGen version inCount outCount lockTime ins outs dest).slice posTxInCount 2 =
      ustob inCount := by
  unfold rTxGen
  rw [Mem.slice_write_disjoint (.inl (by simp; omega))]
  iterate 3 rw [Mem.slice_write_disjoint (.inl (by simp))]
  exact Mem.slice_write_of_length rfl

theorem rTxGen_outCount :
    (rTxGen version inCount outCount lockTime ins outs dest).slice posTxOutCount 2 =
      ustob outCount := by
  unfold rTxGen
  rw [Mem.slice_write_disjoint (.inl (by simp; omega))]
  iterate 2 rw [Mem.slice_write_disjoint (.inl (by simp))]
  exact Mem.slice_write_of_length rfl

theorem rTxGen_lockTime :
    (rTxGen version inCount outCount lockTime ins outs dest).slice posTxLockTime 4 =
      uitob lockTime := by
  unfold rTxGen
  iterate 2 rw [Mem.slice_write_disjoint (.inl (by simp))]
  exact Mem.slice_write_of_length rfl

theorem rTxGen_ins {a len : ℕ} (h : a + len ≤ sizeTxInput * inCount.toNat) :
    (rTxGen version inCount outCount lockTime ins outs dest).slice (posTxBody + a) len =
      ins.slice a len := by
  unfold rTxGen
  rw [Mem.slice_write_disjoint (.inl (by omega)), Mem.slice_write_inside (by simpa using h)]
  exact Mem.drop_take_slice ins h

theorem rTxGen_outs {a len : ℕ} (h : a + len ≤ sizeTxOutput * outCount.toNat) :
    (rTxGen version inCount outCount lockTime ins outs dest).slice
        (posTxBody + sizeTxInput * inCount.toNat + a) len = outs.slice a len := by
  unfold rTxGen
  rw [Mem.slice_write_inside (by simpa using h)]
  exact Mem.drop_take_slice outs h

end Gen

/-- What `m_tx_gen` makes, as another host reads it. -/
structure GeneratedTx (o : ByteOrder) (inCount outCount : UInt16) (data : Mem) (size : ℕ) :
    Prop where
  size_eq : size = 10 + 290 * inCount.toNat + 36 * outCount.toNat
  inCount_eq : btous o (data.shift posTxInCount) = ntohs o inCount
  outCount_eq : btous o (data.shift posTxOutCount) = ntohs o outCount

theorem generatedTx {version inCount outCount : UInt16} {lockTime : UInt32}
    {ins outs dest data : Mem} {size : ℕ} (o : ByteOrder)
    (h : mTxGen version inCount outCount lockTime ins outs dest = .ok (data, size)) :
    GeneratedTx o inCount outCount data size := by
  unfold mTxGen at h
  dsimp only at h
  split at h
  · cases h
  · cases h
    exact ⟨rfl, btous_ustob (rTxGen_inCount ..), btous_ustob (rTxGen_outCount ..)⟩

/-- The counts of a transaction that lies in a message. -/
theorem GeneratedTx.of_slice {o : ByteOrder} {inCount outCount : UInt16} {data data' : Mem}
    {size : ℕ} (h : GeneratedTx o inCount outCount data size)
    (hslice : data'.slice 0 size = data.slice 0 size) :
    GeneratedTx o inCount outCount data' size := by
  have hagree : Mem.Agree size data' data := Mem.agree_iff_slice.mpr hslice
  have hcount : ∀ k, k + 2 ≤ size → btous o (data'.shift k) = btous o (data.shift k) :=
    fun k hk => btous_congr (hagree.shift hk)
  have hsize := h.size_eq
  exact ⟨hsize, (hcount posTxInCount (by simp only [posTxInCount]; omega)).trans h.inCount_eq,
    (hcount posTxOutCount (by simp only [posTxOutCount]; omega)).trans h.outCount_eq⟩

/-- `r_tx_in_gen(ref, index, pubkey, sig, dest)`. Its `POS_TX_IN_*` and
`SIZE_TX_IN_*` are the `*_TX_INPUT_*` constants of the header. -/
def rTxInGen (ref : Mem) (index : UInt16) (pubkey sig dest : Mem) : Mem :=
  (((dest.write posTxInputRefTx (ref.slice 0 sizeTxInputRefTx)).write
    posTxInputOutIndex (ustob index)).write
      posTxInputPubkey (pubkey.slice 0 sizeTxInputPubkey)).write
        posTxInputSig (sig.slice 0 sizeTxInputSig)

/-- `r_tx_out_gen(address, amount, dest)`. -/
def rTxOutGen (address : Mem) (amount : UInt32) (dest : Mem) : Mem :=
  (dest.write posTxOutAddress (address.slice 0 sizeTxOutAddress)).write
    posTxOutAmount (uitob amount)

end Freecoin
