import Freecoin.Blocks

/-!
# Bodies of blocks

The body of a block is its transactions end to end. A serialised transaction
is a byte string that is as long as the counts in its own header say, so a
walk that advances by the size of the transaction under the cursor goes from
one to the next, and ends where the last of them ends. The cursors of the source
are `uint`s: a body that reaches 2³² bytes is walked round again.
-/

namespace Freecoin

open Lib

/-- A serialised transaction, for hosts of the given byte order. -/
structure SerialTx (o : ByteOrder) : Type where
  bytes : Bytes
  size : bytes.length = txGetSize o (Mem.ofBytes bytes)

variable {o : ByteOrder}

/-- Transactions end to end. -/
def txsBytes (ts : List (SerialTx o)) : Bytes := ts.flatMap SerialTx.bytes

/-- The transactions lie end to end from offset `pos` on. -/
def LaidOut (m : Mem) (pos : ℕ) (ts : List (SerialTx o)) : Prop :=
  m.slice pos (txsBytes ts).length = txsBytes ts

/-- The offsets at which they start. -/
def txOffsets : ℕ → List (SerialTx o) → List ℕ
  | _, [] => []
  | pos, t :: ts => pos :: txOffsets (pos + t.bytes.length) ts

@[simp] theorem txsBytes_nil : txsBytes ([] : List (SerialTx o)) = [] := rfl

theorem txsBytes_cons (t : SerialTx o) (ts : List (SerialTx o)) :
    txsBytes (t :: ts) = t.bytes ++ txsBytes ts :=
  List.flatMap_cons

theorem txsBytes_append (ts ts' : List (SerialTx o)) :
    txsBytes (ts ++ ts') = txsBytes ts ++ txsBytes ts' :=
  List.flatMap_append

theorem txsBytes_singleton (t : SerialTx o) : txsBytes [t] = t.bytes := by
  rw [txsBytes_cons, txsBytes_nil, List.append_nil]

theorem txOffsets_length : ∀ (pos : ℕ) (ts : List (SerialTx o)),
    (txOffsets pos ts).length = ts.length := by
  intro pos ts
  induction ts generalizing pos with
  | nil => rfl
  | cons t ts ih => rw [txOffsets, List.length_cons, ih, List.length_cons]

theorem txOffsets_append (ts ts' : List (SerialTx o)) : ∀ pos : ℕ,
    txOffsets pos (ts ++ ts') = txOffsets pos ts ++ txOffsets (pos + (txsBytes ts).length) ts' := by
  induction ts with
  | nil => intro pos; rfl
  | cons t ts ih =>
      intro pos
      rw [List.cons_append, txOffsets, ih, txOffsets, txsBytes_cons, List.length_append,
        List.cons_append, Nat.add_assoc]

/-! ## One transaction -/

theorem SerialTx.header_le (t : SerialTx o) : sizeTxHeader ≤ t.bytes.length := by
  rw [t.size]
  exact header_le_txGetSize o _

theorem SerialTx.agree {t : SerialTx o} {m : Mem} {pos : ℕ}
    (h : m.slice pos t.bytes.length = t.bytes) :
    Mem.Agree t.bytes.length (Mem.ofBytes t.bytes) (m.shift pos) := by
  rw [Mem.agree_iff_slice, Mem.slice_shift, Nat.add_zero, h]
  exact Mem.slice_load _ rfl

/-- Where a serialised transaction lies, its size is read. -/
theorem SerialTx.txGetSize_eq {t : SerialTx o} {m : Mem} {pos : ℕ}
    (h : m.slice pos t.bytes.length = t.bytes) :
    txGetSize o (m.shift pos) = t.bytes.length := by
  rw [t.size]
  exact (txGetSize_congr o ((SerialTx.agree h).mono t.header_le)).symm

theorem SerialTx.txBytes_eq {t : SerialTx o} {m : Mem} {pos : ℕ}
    (h : m.slice pos t.bytes.length = t.bytes) : txBytes o (m.shift pos) = t.bytes := by
  rw [txBytes, SerialTx.txGetSize_eq h, Mem.slice_shift, Nat.add_zero, h]

/-- Ten zeros are a transaction without inputs and outputs. -/
def zeroSerialTx : SerialTx .little := ⟨List.replicate 10 0, by decide⟩

/-- The start of a transaction: the version, here zero, and the counts. -/
def countBytes (o : ByteOrder) (inCount outCount : UInt16) : Bytes :=
  [0, 0] ++ ustob (ntohs o inCount) ++ ustob (ntohs o outCount)

theorem countBytes_length (o : ByteOrder) (inCount outCount : UInt16) :
    (countBytes o inCount outCount).length = 6 := rfl

/-- The bytes of a transaction with these counts, and `fill` for the rest. -/
def filledBytes (o : ByteOrder) (inCount outCount : UInt16) (fill : UInt8) : Bytes :=
  countBytes o inCount outCount ++
    List.replicate (4 + 290 * inCount.toNat + 36 * outCount.toNat) fill

theorem filledBytes_length (o : ByteOrder) (inCount outCount : UInt16) (fill : UInt8) :
    (filledBytes o inCount outCount fill).length =
      10 + 290 * inCount.toNat + 36 * outCount.toNat := by
  rw [filledBytes, List.length_append, List.length_replicate, countBytes_length]
  omega

/-- A count is read as it was written. -/
theorem filledBytes_count {o : ByteOrder} {inCount outCount : UInt16} (fill : UInt8) {k : ℕ}
    {x : UInt16} (hk : k + 2 ≤ 6)
    (hx : ((countBytes o inCount outCount).drop k).take 2 = ustob (ntohs o x)) :
    btous o ((Mem.ofBytes (filledBytes o inCount outCount fill)).shift k) = x := by
  have hlength := countBytes_length o inCount outCount
  refine (btous_ustob ?_).trans (ntohs_ntohs o x)
  rw [filledBytes, Mem.slice_ofBytes_inside (by rw [List.length_append]; omega),
    List.drop_append_of_le_length (by omega),
    List.take_append_of_le_length (by rw [List.length_drop]; omega), hx]

theorem filledBytes_size (o : ByteOrder) (inCount outCount : UInt16) (fill : UInt8) :
    (filledBytes o inCount outCount fill).length =
      txGetSize o (Mem.ofBytes (filledBytes o inCount outCount fill)) := by
  have hin : btous o ((Mem.ofBytes (filledBytes o inCount outCount fill)).shift posTxInCount) =
      inCount := filledBytes_count fill (by decide) rfl
  have hout : btous o ((Mem.ofBytes (filledBytes o inCount outCount fill)).shift posTxOutCount) =
      outCount := filledBytes_count fill (by decide) rfl
  rw [txGetSize, hin, hout, filledBytes_length]
  rfl

/-- Such a transaction. -/
def filledTx (o : ByteOrder) (inCount outCount : UInt16) (fill : UInt8) : SerialTx o :=
  ⟨filledBytes o inCount outCount fill, filledBytes_size o inCount outCount fill⟩

theorem filledTx_length (o : ByteOrder) (inCount outCount : UInt16) (fill : UInt8) :
    (filledTx o inCount outCount fill).bytes.length =
      10 + 290 * inCount.toNat + 36 * outCount.toNat := filledBytes_length o inCount outCount fill

/-- Behind the counts there is nothing else. -/
theorem filledTx_getElem? {o : ByteOrder} {inCount outCount : UInt16} {fill : UInt8} {i : ℕ}
    (hlo : 6 ≤ i) (hhi : i < 10 + 290 * inCount.toNat + 36 * outCount.toNat) :
    (filledTx o inCount outCount fill).bytes[i]? = some fill := by
  unfold filledTx filledBytes
  rw [List.getElem?_append_right hlo, List.getElem?_replicate,
    if_pos (by rw [countBytes_length]; omega)]

/-! ## All of them -/

theorem laidOut_nil (m : Mem) (pos : ℕ) : LaidOut m pos ([] : List (SerialTx o)) := rfl

theorem laidOut_cons {m : Mem} {pos : ℕ} {t : SerialTx o} {ts : List (SerialTx o)} :
    LaidOut m pos (t :: ts) ↔
      m.slice pos t.bytes.length = t.bytes ∧ LaidOut m (pos + t.bytes.length) ts := by
  unfold LaidOut
  rw [txsBytes_cons, List.length_append, Mem.slice_append]
  constructor
  · intro h
    exact List.append_inj h (Mem.slice_length ..)
  · rintro ⟨hfirst, hrest⟩
    rw [hfirst, hrest]

/-- Three transactions: the first has an input and two outputs, the second nothing, the
last two inputs and an output. -/
def threeTxs (o : ByteOrder) : List (SerialTx o) :=
  [filledTx o 1 2 5, filledTx o 0 0 0, filledTx o 2 1 9]

theorem txsBytes_threeTxs (o : ByteOrder) : (txsBytes (threeTxs o)).length = 1008 := by
  rw [threeTxs, txsBytes_cons, txsBytes_cons, txsBytes_singleton, List.length_append,
    List.length_append, filledTx_length, filledTx_length, filledTx_length]
  rfl

/-- In memory that holds just them they start at its first byte. -/
theorem laidOut_ofBytes (ts : List (SerialTx o)) : LaidOut (Mem.ofBytes (txsBytes ts)) 0 ts :=
  Mem.slice_load _ rfl

/-- **The walk.** Over transactions that lie end to end it visits where each of them
starts, and stops where the last one ends. -/
theorem LaidOut.walk {m : Mem} {ts : List (SerialTx o)} :
    ∀ {pos : ℕ}, LaidOut m pos ts →
      txCursors o m ts.length pos = txOffsets pos ts ∧
      txEnd o m ts.length pos = pos + (txsBytes ts).length := by
  induction ts with
  | nil =>
      intro pos _
      exact ⟨rfl, rfl⟩
  | cons t ts ih =>
      intro pos h
      obtain ⟨hfirst, hrest⟩ := laidOut_cons.mp h
      obtain ⟨hvisits, hend⟩ := ih hrest
      rw [List.length_cons, txCursors, txEnd, SerialTx.txGetSize_eq hfirst, hvisits, hend,
        txOffsets, txsBytes_cons, List.length_append, Nat.add_assoc]
      exact ⟨rfl, rfl⟩

/-- What lies under the cursors are the transactions. -/
theorem LaidOut.txBytes_eq {m : Mem} {ts : List (SerialTx o)} :
    ∀ {pos : ℕ}, LaidOut m pos ts →
      (txOffsets pos ts).map (fun c => txBytes o (m.shift c)) = ts.map SerialTx.bytes := by
  induction ts with
  | nil =>
      intro pos _
      rfl
  | cons t ts ih =>
      intro pos h
      obtain ⟨hfirst, hrest⟩ := laidOut_cons.mp h
      rw [txOffsets, List.map_cons, List.map_cons, ih hrest, SerialTx.txBytes_eq hfirst]

theorem SerialTx.txBytes_eq_iff {t : SerialTx o} {m : Mem} {pos : ℕ} :
    txBytes o (m.shift pos) = t.bytes ↔ m.slice pos t.bytes.length = t.bytes := by
  constructor
  · intro h
    have hlength := congrArg List.length h
    rw [txBytes, Mem.slice_length] at hlength
    rwa [txBytes, hlength, Mem.slice_shift, Nat.add_zero] at h
  · exact SerialTx.txBytes_eq

/-- The same transactions seen through a pointer to where they start. -/
theorem LaidOut.shift {m : Mem} {pos : ℕ} {ts : List (SerialTx o)} (h : LaidOut m pos ts) :
    LaidOut (m.shift pos) 0 ts := by
  unfold LaidOut at h ⊢
  rw [Mem.slice_shift, Nat.add_zero, h]

theorem LaidOut.slice_eq {m : Mem} {ts : List (SerialTx o)} :
    ∀ {pos : ℕ}, LaidOut m pos ts →
      ∀ ct ∈ (txOffsets pos ts).zip ts, m.slice ct.1 ct.2.bytes.length = ct.2.bytes := by
  induction ts with
  | nil =>
      intro pos _ ct hct
      exact absurd hct List.not_mem_nil
  | cons t ts ih =>
      intro pos h ct hct
      obtain ⟨hfirst, hrest⟩ := laidOut_cons.mp h
      rw [txOffsets, List.zip_cons_cons] at hct
      rcases List.mem_cons.mp hct with rfl | hct
      · exact hfirst
      · exact ih hrest ct hct

/-! ## Past 2³² bytes

A `uint` cursor has wrapped around by then. It still meets the transactions if each
of them lies once more where the cursor has gone to. -/

/-- Each transaction that starts 2³² or more bytes into the body also lies at its offset
modulo 2³². -/
def SameAfterWrap (m : Mem) (ts : List (SerialTx o)) : Prop :=
  ∀ ct ∈ (txOffsets 0 ts).zip ts, 2 ^ 32 ≤ ct.1 →
    m.slice (ct.1 % 2 ^ 32) ct.2.bytes.length = ct.2.bytes

/-- What the walk meets, for any start. -/
theorem cursorLoop_reads_iff {m : Mem} {ts : List (SerialTx o)} : ∀ {pos : ℕ},
    ((cursorLoop o m ts.length (UInt32.ofNat pos)).1.map fun c => txBytes o (m.shift c.toNat)) =
      ts.map SerialTx.bytes ↔
    ∀ ct ∈ (txOffsets pos ts).zip ts,
      m.slice (ct.1 % 2 ^ 32) ct.2.bytes.length = ct.2.bytes := by
  induction ts with
  | nil =>
      intro pos
      exact ⟨fun _ ct hct => absurd hct List.not_mem_nil, fun _ => rfl⟩
  | cons t ts ih =>
      intro pos
      rw [List.length_cons, cursorLoop, List.map_cons, List.map_cons, List.cons.injEq,
        UInt32.toNat_ofNat', SerialTx.txBytes_eq_iff, txOffsets, List.zip_cons_cons,
        List.forall_mem_cons]
      refine and_congr_right fun hfirst => ?_
      rw [SerialTx.txGetSize_eq hfirst, ← UInt32.ofNat_add]
      exact ih

/-- **The walk past 2³² bytes.** Over transactions that lie end to end it meets every one of
them, if and only if those it comes to after it has wrapped around lie there too. -/
theorem LaidOut.reads_iff {m : Mem} {ts : List (SerialTx o)} (h : LaidOut m 0 ts) :
    ((cursorLoop o m ts.length 0).1.map fun c => txBytes o (m.shift c.toNat)) =
      ts.map SerialTx.bytes ↔ SameAfterWrap m ts := by
  have hwalk := @cursorLoop_reads_iff o m ts 0
  refine hwalk.trans ⟨fun hreads ct hct _ => hreads ct hct, ?_⟩
  intro hwrap ct hct
  rcases Nat.lt_or_ge ct.1 (2 ^ 32) with hlt | hge
  · rw [Nat.mod_eq_of_lt hlt]
    exact h.slice_eq ct hct
  · exact hwrap ct hct hge

theorem txOffsets_lt {ts : List (SerialTx o)} : ∀ {pos : ℕ},
    ∀ ct ∈ (txOffsets pos ts).zip ts, ct.1 < pos + (txsBytes ts).length := by
  induction ts with
  | nil =>
      intro pos ct hct
      exact absurd hct List.not_mem_nil
  | cons t ts ih =>
      intro pos ct hct
      have hheader := t.header_le
      rw [txOffsets, List.zip_cons_cons] at hct
      rw [txsBytes_cons, List.length_append]
      rcases List.mem_cons.mp hct with rfl | hct
      · have hpos : 0 < t.bytes.length + (txsBytes ts).length :=
          Nat.lt_of_lt_of_le (by decide) (Nat.le_add_right_of_le hheader)
        exact Nat.lt_add_of_pos_right hpos
      · rw [← Nat.add_assoc]
        exact ih ct hct

/-- In a body of at most 2³² bytes nothing starts there. -/
theorem sameAfterWrap_of_le {m : Mem} {ts : List (SerialTx o)}
    (h : (txsBytes ts).length ≤ 2 ^ 32) : SameAfterWrap m ts := by
  intro ct hct hge
  have hlt := txOffsets_lt ct hct
  rw [Nat.zero_add] at hlt
  exact absurd (Nat.lt_of_lt_of_le hlt h) (Nat.not_lt.mpr hge)

end Freecoin
