import Freecoin.Body
import Freecoin.Miner

/-!
# Filling a block

`block_add_tx` appends at the offset where `block_compute_size` ends. That
walk goes over as many transactions as the low byte of an address says and
starts past the count field, so an addition, which writes the count field and
from the end of the walk on, does not move it: every further transaction goes
to the offset of the first one, over whatever is there.

From this it is clear when a sequence of additions goes through, for the
blocks built from a header and for the refresh of the miner.
-/

namespace Freecoin

open Lib

/-- One `block_add_tx` after another. -/
def addTxs (o : ByteOrder) (addr : UInt8) : List MTx → Mem → Except Fault Mem
  | [], block => .ok block
  | tx :: rest, block => do
      let added ← blockAddTx o addr block (some tx)
      addTxs o addr rest added

/-! ## The end of the walk stays -/

theorem txEnd_shift (o : ByteOrder) (m : Mem) (k : ℕ) : ∀ (n cursor : ℕ),
    txEnd o m n (k + cursor) = k + txEnd o (m.shift k) n cursor := by
  intro n
  induction n with
  | zero => intro cursor; rfl
  | succ n ih =>
      intro cursor
      rw [txEnd, txEnd, Mem.shift_shift, Nat.add_assoc, ih]

/-- `block_compute_size` does not look at the header. -/
theorem blockComputeSize_eq (o : ByteOrder) (addr : UInt8) (w : Mem) :
    blockComputeSize o addr w = 83 + txEnd o (w.shift posBlockBody) addr.toNat 0 :=
  txEnd_shift o w 83 addr.toNat 0

theorem blockComputeSize_congr {o : ByteOrder} {addr : UInt8} {w w' : Mem}
    (h : ∀ i, posBlockBody ≤ i → i < blockComputeSize o addr w → w' i = w i) :
    blockComputeSize o addr w' = blockComputeSize o addr w := by
  have hagree : Mem.Agree (txEnd o (w.shift posBlockBody) addr.toNat 0) (w.shift posBlockBody)
      (w'.shift posBlockBody) := by
    intro i hi
    refine (h (posBlockBody + i) (Nat.le_add_right _ _) ?_).symm
    rw [blockComputeSize_eq]
    exact Nat.add_lt_add_left hi 83
  rw [blockComputeSize_eq, blockComputeSize_eq, (txEnd_congr hagree).1]

/-- Past the header an addition writes from the end of the walk on. -/
theorem blockAddTx_body {o : ByteOrder} {addr : UInt8} {w w' : Mem} {tx : Option MTx}
    (h : blockAddTx o addr w tx = .ok w') {i : ℕ} (hi : posBlockBody ≤ i)
    (hout : i < blockComputeSize o addr w ∨
      ∀ t, tx = some t → blockComputeSize o addr w + t.size ≤ i) : w' i = w i := by
  obtain ⟨t, count, rfl, -, rfl⟩ := blockAddTx_cases h
  rw [Mem.write_after (by simpa using hi)]
  rcases hout with hbelow | hpast
  · exact Mem.write_before _ hbelow
  · apply Mem.write_after
    rw [t.bytes_length]
    exact hpast t rfl

/-- **The place.** An addition does not move the place of the next one. -/
theorem blockComputeSize_blockAddTx {o : ByteOrder} {addr : UInt8} {w w' : Mem} {tx : Option MTx}
    (h : blockAddTx o addr w tx = .ok w') :
    blockComputeSize o addr w' = blockComputeSize o addr w :=
  blockComputeSize_congr fun _ hi hbelow => blockAddTx_body h hi (.inl hbelow)

/-! ## When additions go through -/

/-- One addition. -/
theorem blockAddTx_ok_iff {o : ByteOrder} {addr : UInt8} {w : Mem} {tx : Option MTx} :
    (∃ w', blockAddTx o addr w tx = .ok w') ↔
      ∃ t, tx = some t ∧ blockComputeSize o addr w + t.size < maxBlockSize := by
  constructor
  · rintro ⟨w', h⟩
    obtain ⟨t, -, htx, hfit, -⟩ := blockAddTx_cases h
    exact ⟨t, htx, hfit⟩
  · rintro ⟨t, rfl, hfit⟩
    exact ⟨_, if_neg (Nat.not_le.mpr hfit)⟩

theorem blockAddTx_fatal {o : ByteOrder} {addr : UInt8} {w : Mem} {tx : MTx}
    (h : maxBlockSize ≤ blockComputeSize o addr w + tx.size) :
    blockAddTx o addr w (some tx) = .error (.fatal "Block overflow during block_add_tx") :=
  if_pos h

/-- A sequence of additions: each transaction has to fit where the first one goes. -/
theorem addTxs_ok_iff {o : ByteOrder} {addr : UInt8} :
    ∀ {txs : List MTx} {w : Mem}, (∃ w', addTxs o addr txs w = .ok w') ↔
      ∀ tx ∈ txs, blockComputeSize o addr w + tx.size < maxBlockSize := by
  intro txs
  induction txs with
  | nil =>
      intro w
      exact ⟨fun _ tx htx => absurd htx List.not_mem_nil, fun _ => ⟨w, rfl⟩⟩
  | cons tx rest ih =>
      intro w
      rw [List.forall_mem_cons]
      constructor
      · rintro ⟨w', h⟩
        obtain ⟨added, hadd, hrest⟩ := ok_of_bind h
        obtain ⟨t, htx, hfit⟩ := blockAddTx_ok_iff.mp ⟨added, hadd⟩
        cases htx
        have hall := ih.mp ⟨w', hrest⟩
        rw [blockComputeSize_blockAddTx hadd] at hall
        exact ⟨hfit, hall⟩
      · rintro ⟨hfit, hall⟩
        obtain ⟨added, hadd⟩ := blockAddTx_ok_iff.mpr ⟨tx, rfl, hfit⟩
        rw [← blockComputeSize_blockAddTx hadd] at hall
        obtain ⟨w', hrest⟩ := ih.mpr hall
        refine ⟨w', ?_⟩
        rw [addTxs, hadd]
        exact hrest

/-- What a sequence of additions leaves alone. -/
theorem addTxs_frame {o : ByteOrder} {addr : UInt8} {i : ℕ} :
    ∀ {txs : List MTx} {w w' : Mem}, addTxs o addr txs w = .ok w' →
      blockComputeSize o addr w' = blockComputeSize o addr w ∧
      (i < posBlockTxCount → w' i = w i) ∧
      (posBlockBody ≤ i → (∀ tx ∈ txs, blockComputeSize o addr w + tx.size ≤ i) →
        w' i = w i) := by
  intro txs
  induction txs with
  | nil =>
      intro w w' h
      cases h
      exact ⟨rfl, fun _ => rfl, fun _ _ => rfl⟩
  | cons tx rest ih =>
      intro w w' h
      obtain ⟨added, hadd, hrest⟩ := ok_of_bind h
      obtain ⟨hplace, hheader, hbody⟩ := ih hrest
      rw [blockComputeSize_blockAddTx hadd] at hplace hbody
      refine ⟨hplace, fun hi => (hheader hi).trans (blockAddTx_frame hadd hi), ?_⟩
      intro hi hpast
      obtain ⟨hfirst, hlater⟩ := List.forall_mem_cons.mp hpast
      refine (hbody hi hlater).trans (blockAddTx_body hadd hi (.inr ?_))
      intro t ht
      cases ht
      exact hfirst

/-! ## Building a block from a header -/

section Building

variable {o : ByteOrder}

/-- The transaction as it is handed to `block_add_tx`, which does not read its hash. -/
def SerialTx.mTx (t : SerialTx o) : MTx := ⟨[], t.bytes, t.bytes.length, t.bytes.length, []⟩

/-- The transactions are added to the header one by one. Below the maximal size this
goes through and leaves the header with the right count and then the
transactions; the first addition that would reach it ends in `fatal`. -/
structure BuildsBlock (addr : UInt8) (ts : List (SerialTx o)) (header : Mem) : Prop where
  built : sizeBlockHeader + (txsBytes ts).length < maxBlockSize →
    ∃ w, addTxs o addr (ts.map SerialTx.mTx) header = .ok w ∧
      (∀ i < posBlockTxCount, w i = header i) ∧
      (blockGetTxCount o w).toNat = ts.length ∧ LaidOut w posBlockBody ts
  overflow : ∀ pre t post, ts = pre ++ t :: post →
    sizeBlockHeader + (txsBytes pre).length < maxBlockSize →
    maxBlockSize ≤ sizeBlockHeader + (txsBytes pre).length + t.bytes.length →
    ∃ w, addTxs o addr (pre.map SerialTx.mTx) header = .ok w ∧
      blockAddTx o addr w (some t.mTx) =
        .error (.fatal "Block overflow during block_add_tx")

/-- Below the maximal size there is at most one transaction, and the host that adds it
is big-endian and keeps the count field at an address with low byte zero; the
first addition to reach it is the first of all, or the low byte is zero and it
would reach it on its own. -/
structure BuildsWhen (addr : UInt8) (ts : List (SerialTx o)) : Prop where
  small : sizeBlockHeader + (txsBytes ts).length < maxBlockSize →
    ts = [] ∨ (o = .big ∧ addr = 0 ∧ ts.length = 1)
  large : ∀ pre t post, ts = pre ++ t :: post →
    sizeBlockHeader + (txsBytes pre).length < maxBlockSize →
    maxBlockSize ≤ sizeBlockHeader + (txsBytes pre).length + t.bytes.length →
    pre = [] ∨ (addr = 0 ∧ maxBlockSize ≤ sizeBlockHeader + t.bytes.length)

theorem SerialTx.mTx_bytes (t : SerialTx o) : t.mTx.bytes = t.bytes := Mem.slice_load _ rfl

/-- Each transaction is a part of all of them. -/
theorem length_le_txsBytes {t : SerialTx o} {ts : List (SerialTx o)} (ht : t ∈ ts) :
    t.bytes.length ≤ (txsBytes ts).length := by
  obtain ⟨pre, post, rfl⟩ := List.append_of_mem ht
  rw [txsBytes_append, txsBytes_cons, List.length_append, List.length_append]
  omega

/-- With another one beside it, a transaction is not all of them. -/
theorem length_lt_txsBytes {t : SerialTx o} {ts : List (SerialTx o)} (ht : t ∈ ts)
    (hlen : 2 ≤ ts.length) : t.bytes.length < (txsBytes ts).length := by
  obtain ⟨pre, post, rfl⟩ := List.append_of_mem ht
  obtain ⟨u, hu⟩ : ∃ u, u ∈ pre ++ post := by
    refine List.exists_mem_of_length_pos ?_
    simp only [List.length_append, List.length_cons] at hlen ⊢
    omega
  have hother := length_le_txsBytes hu
  have hheader := u.header_le
  rw [txsBytes_append, List.length_append] at hother
  rw [txsBytes_append, txsBytes_cons, List.length_append, List.length_append]
  simp only [sizeTxHeader] at hheader
  omega

/-! ### Headers -/

section Header

variable (version : UInt16) (time height : UInt32) (prevHash : Mem) (target : UInt8) (dest : Mem)

theorem blockAddHeader_count :
    (blockAddHeader version time height prevHash target dest).slice posBlockTxCount 4 = uitob 0 :=
  Mem.slice_write_of_length rfl

theorem blockAddHeader_body {i : ℕ} (hi : posBlockBody ≤ i) :
    blockAddHeader version time height prevHash target dest i = dest i := by
  simp only [posBlockBody, sizeBlockHeader] at hi
  unfold blockAddHeader
  iterate 8 rw [Mem.write_after (by simp; omega)]

end Header

/-- Memory that shows a transaction larger than a block wherever it is read. -/
def fullMem : Mem := fun _ => 0xff

theorem fullMem_txGetSize (o : ByteOrder) (k : ℕ) :
    maxBlockSize ≤ txGetSize o (fullMem.shift k) := by
  have hsize : maxBlockSize ≤ txGetSize o fullMem := by
    cases o <;> decide
  exact hsize

/-- No transaction can be added to a header in such memory, once the walk goes over
one. -/
theorem fullMem_blockComputeSize {addr : UInt8} (haddr : addr ≠ 0) {w : Mem}
    (hw : ∀ i, posBlockBody ≤ i → w i = fullMem i) : maxBlockSize ≤ blockComputeSize o addr w := by
  have hpos : addr.toNat ≠ 0 := fun h0 => haddr (UInt8.toNat_inj.mp h0)
  obtain ⟨n, hn⟩ := Nat.exists_eq_succ_of_ne_zero hpos
  have hbody : w.shift posBlockBody = fullMem.shift posBlockBody := by
    funext i
    exact hw _ (Nat.le_add_right _ _)
  have hsize := fullMem_txGetSize o posBlockBody
  rw [← hbody] at hsize
  unfold blockComputeSize
  rw [hn, txEnd]
  exact Nat.le_trans (Nat.le_trans hsize (Nat.le_add_left _ _)) (le_txEnd ..)

/-! ### When a block is built -/

/-- One transaction, on a big-endian host. -/
theorem addTxs_one {t : SerialTx .big} {header : Mem}
    (hcount : header.slice posBlockTxCount 4 = uitob 0)
    (hfit : sizeBlockHeader + t.bytes.length < maxBlockSize) :
    ∃ w, addTxs .big 0 [t.mTx] header = .ok w ∧ (blockGetTxCount .big w).toNat = 1 ∧
      LaidOut w posBlockBody [t] := by
  have hadd : blockAddTx .big 0 header (some t.mTx) = .ok
      ((header.write sizeBlockHeader t.mTx.bytes).write posBlockTxCount (uitob 1)) := by
    have hroom : blockComputeSize .big 0 header + t.mTx.size < maxBlockSize := hfit
    rw [blockAddTx_fits hroom hcount]
    rfl
  refine ⟨(header.write sizeBlockHeader t.mTx.bytes).write posBlockTxCount (uitob 1), ?_, ?_, ?_⟩
  · rw [addTxs, hadd]
    rfl
  · rw [blockGetTxCount, btoui_uitob (Mem.slice_write_of_length rfl)]
    rfl
  · unfold LaidOut
    rw [txsBytes_singleton, Mem.slice_write_disjoint (.inr (by simp)), t.mTx_bytes]
    exact Mem.slice_write ..

/-- The condition is enough, whatever the header. -/
theorem BuildsWhen.buildsBlock {addr : UInt8} {ts : List (SerialTx o)} (h : BuildsWhen addr ts)
    {header : Mem} (hcount : header.slice posBlockTxCount 4 = uitob 0) :
    BuildsBlock addr ts header := by
  constructor
  · intro hfit
    rcases h.small hfit with rfl | ⟨rfl, rfl, hone⟩
    · refine ⟨header, rfl, fun i _ => rfl, ?_, laidOut_nil _ _⟩
      rw [blockGetTxCount, btoui_uitob hcount]
      cases o <;> rfl
    · obtain ⟨t, rfl⟩ := List.length_eq_one_iff.mp hone
      rw [txsBytes_singleton] at hfit
      obtain ⟨w, hadd, hdecoded, hbody⟩ := addTxs_one hcount hfit
      exact ⟨w, hadd, fun i hi => (addTxs_frame hadd).2.1 hi, hdecoded, hbody⟩
  · intro pre t post hts hpre hreach
    rcases h.large pre t post hts hpre hreach with rfl | ⟨rfl, hown⟩
    · refine ⟨header, rfl, blockAddTx_fatal (Nat.le_trans hreach ?_)⟩
      exact Nat.add_le_add_right (header_le_blockComputeSize o addr header) t.bytes.length
    · obtain ⟨w, hadd⟩ : ∃ w, addTxs o 0 (pre.map SerialTx.mTx) header = .ok w := by
        rw [addTxs_ok_iff]
        intro tx htx
        obtain ⟨u, hu, rfl⟩ := List.mem_map.mp htx
        exact Nat.lt_of_le_of_lt (Nat.add_le_add_left (length_le_txsBytes hu) 83) hpre
      exact ⟨w, hadd, blockAddTx_fatal hown⟩

/-- Some addition goes through in any memory only if the walk covers nothing. -/
theorem addr_zero_of_built {addr : UInt8} {pre : List (SerialTx o)} (hpre : pre ≠ [])
    (hbuilt : ∀ version time height prevHash target dest, ∃ w, addTxs o addr (pre.map SerialTx.mTx)
      (blockAddHeader version time height prevHash target dest) = .ok w) : addr = 0 := by
  by_contra haddr
  obtain ⟨t, pre, rfl⟩ := List.exists_cons_of_ne_nil hpre
  have hfit := addTxs_ok_iff.mp (hbuilt 0 0 0 (fun _ => 0) 0 fullMem) t.mTx (List.mem_cons_self ..)
  have hlarge : maxBlockSize ≤
      blockComputeSize o addr (blockAddHeader 0 0 0 (fun _ => 0) 0 fullMem) :=
    fullMem_blockComputeSize haddr fun i hi => blockAddHeader_body _ _ _ _ _ _ hi
  omega

/-- On a little-endian host the count of one is read as 2²⁴. -/
theorem not_one_little {addr : UInt8} {t : SerialTx .little} {header w : Mem}
    (hcount : header.slice posBlockTxCount 4 = uitob 0)
    (hadd : addTxs .little addr [t.mTx] header = .ok w) :
    (blockGetTxCount .little w).toNat ≠ 1 := by
  obtain ⟨added, hfirst, hlast⟩ := ok_of_bind hadd
  cases hlast
  obtain ⟨u, htx, hfit⟩ := blockAddTx_ok_iff.mp ⟨w, hfirst⟩
  cases htx
  rw [blockAddTx_fits hfit hcount] at hfirst
  cases hfirst
  rw [blockGetTxCount, btoui_uitob (Mem.slice_write_of_length rfl)]
  decide

section Necessity

variable {addr : UInt8} {ts : List (SerialTx o)}
  (hall : ∀ version time height prevHash target dest,
    BuildsBlock addr ts (blockAddHeader version time height prevHash target dest))

include hall

/-- Two transactions are never end to end: the last byte of theirs is still what the
memory held before. -/
theorem not_two_built (hlen : 2 ≤ ts.length) :
    ¬ sizeBlockHeader + (txsBytes ts).length < maxBlockSize := by
  intro hfit
  have hne : ts ≠ [] := by
    rintro rfl
    simp at hlen
  have haddr : addr = 0 := by
    refine addr_zero_of_built hne fun version time height prevHash target dest => ?_
    obtain ⟨w, hadd, -⟩ := (hall version time height prevHash target dest).built hfit
    exact ⟨w, hadd⟩
  subst haddr
  have hlast : ∀ v : UInt8, (txsBytes ts)[(txsBytes ts).length - 1]? = some v := by
    intro v
    obtain ⟨w, hadd, -, -, hbody⟩ := (hall 0 0 0 (fun _ => 0) 0 fun _ => v).built hfit
    obtain ⟨t, ht⟩ := List.exists_mem_of_ne_nil ts hne
    have hpos := length_lt_txsBytes ht hlen
    have hkept := (addTxs_frame (i := 83 + ((txsBytes ts).length - 1)) hadd).2.2
      (Nat.le_add_right _ _) (by
        intro tx htx
        obtain ⟨u, hu, rfl⟩ := List.mem_map.mp htx
        exact Nat.add_le_add_left (Nat.le_sub_one_of_lt (length_lt_txsBytes hu hlen)) 83)
    have hdest := blockAddHeader_body 0 0 0 (fun _ => 0) 0 (fun _ => v)
      (i := 83 + ((txsBytes ts).length - 1)) (Nat.le_add_right _ _)
    rw [← hbody, Mem.slice_length, Mem.slice_getElem?, if_pos (by omega)]
    exact congrArg some (hkept.trans hdest)
  exact absurd ((hlast 0).symm.trans (hlast 1)) (by decide)

/-- The condition is needed. -/
theorem buildsWhen_of_all : BuildsWhen addr ts := by
  constructor
  · intro hfit
    match ts with
    | [] => exact .inl rfl
    | [t] =>
        right
        refine ⟨?_, ?_, rfl⟩
        · cases o with
          | big => rfl
          | little =>
              obtain ⟨w, hadd, -, hdecoded, -⟩ := (hall 0 0 0 (fun _ => 0) 0 fun _ => 0).built hfit
              exact absurd hdecoded (not_one_little (blockAddHeader_count ..) hadd)
        · refine addr_zero_of_built (List.cons_ne_nil t []) fun _ _ _ _ _ _ => ?_
          obtain ⟨w, hadd, -⟩ := (hall _ _ _ _ _ _).built hfit
          exact ⟨w, hadd⟩
    | _ :: _ :: _ =>
        refine absurd hfit (not_two_built hall ?_)
        rw [List.length_cons, List.length_cons]
        exact Nat.le_add_left 2 _
  · intro pre t post hts hpre hreach
    by_cases hne : pre = []
    · exact .inl hne
    · right
      have haddr : addr = 0 := by
        refine addr_zero_of_built hne fun _ _ _ _ _ _ => ?_
        obtain ⟨w, hadd, -⟩ := (hall _ _ _ _ _ _).overflow pre t post hts hpre hreach
        exact ⟨w, hadd⟩
      subst haddr
      refine ⟨rfl, ?_⟩
      obtain ⟨w, -, hfatal⟩ :=
        (hall 0 0 0 (fun _ => 0) 0 fun _ => 0).overflow pre t post hts hpre hreach
      by_contra hfits
      obtain ⟨added, hadd⟩ : ∃ added, blockAddTx o 0 w (some t.mTx) = .ok added :=
        blockAddTx_ok_iff.mpr ⟨t.mTx, rfl, Nat.not_le.mp hfits⟩
      rw [hadd] at hfatal
      cases hfatal

end Necessity

/-- **Building a block.** The additions do what they are for, on every header that
`block_add_header` makes, if and only if at most one transaction is added, by a
big-endian host and at an address with low byte zero, or the first addition that
would reach the maximal size is the first of all or would reach it on its own. -/
theorem buildsBlock_iff (o : ByteOrder) (addr : UInt8) (ts : List (SerialTx o)) :
    (∀ version time height prevHash target dest,
      BuildsBlock addr ts (blockAddHeader version time height prevHash target dest)) ↔
      BuildsWhen addr ts := by
  constructor
  · intro hall
    exact buildsWhen_of_all hall
  · intro h version time height prevHash target dest
    exact h.buildsBlock (blockAddHeader_count ..)

/-- One transaction of ten zeros on a little-endian host: the count is wrong. -/
theorem zeroSerialTx_not_built :
    ¬ ∀ (o : ByteOrder) (addr : UInt8) (ts : List (SerialTx o)) version time height prevHash target
      dest, BuildsBlock addr ts (blockAddHeader version time height prevHash target dest) := by
  intro hall
  obtain ⟨w, hadd, -, hdecoded, -⟩ :=
    (hall .little 0 [zeroSerialTx] 1 0 1 (fun _ => 0) 0 fun _ => 0).built (by decide)
  exact not_one_little (blockAddHeader_count ..) hadd hdecoded

end Building

/-! ## The refresh -/

/-- The loop over the mempool goes through if every slot it visits holds a transaction
that fits where the first one goes. -/
theorem addMempoolTxs_ok_iff {o : ByteOrder} {addr : UInt8} {p : Mempool} :
    ∀ {n k : ℕ} {w : Mem}, (∃ w', addMempoolTxs o addr p n k w = .ok w') ↔
      ∀ i < n, ∃ tx, dataMempoolGet p (k + i) = some tx ∧
        blockComputeSize o addr w + tx.size < maxBlockSize := by
  intro n
  induction n with
  | zero =>
      intro k w
      exact ⟨fun _ i hi => absurd hi (Nat.not_lt_zero i), fun _ => ⟨w, rfl⟩⟩
  | succ n ih =>
      intro k w
      constructor
      · rintro ⟨w', h⟩ i hi
        obtain ⟨added, hadd, hrest⟩ := ok_of_bind h
        cases i with
        | zero => exact blockAddTx_ok_iff.mp ⟨added, hadd⟩
        | succ i =>
            have hlater := ih.mp ⟨w', hrest⟩ i (Nat.lt_of_succ_lt_succ hi)
            rwa [blockComputeSize_blockAddTx hadd, Nat.add_assoc, Nat.add_comm 1] at hlater
      · intro h
        obtain ⟨added, hadd⟩ := blockAddTx_ok_iff.mpr (h 0 (Nat.succ_pos n))
        obtain ⟨w', hrest⟩ := (ih (k := k + 1) (w := added)).mpr (by
          intro i hi
          rw [blockComputeSize_blockAddTx hadd, Nat.add_assoc, Nat.add_comm 1]
          exact h (i + 1) (Nat.succ_lt_succ hi))
        refine ⟨w', ?_⟩
        rw [addMempoolTxs]
        show (blockAddTx o addr w (dataMempoolGet p (k + 0)) >>= _) = _
        rw [hadd]
        exact hrest

/-- **The refresh.** It goes through if and only if every slot of the mempool that it
visits holds a transaction which on its own fits at the end of the walk. -/
theorem refresh_survives_iff (o : ByteOrder) (addr : UInt8) (p : Mempool) (w : Mem) :
    (∃ w', refresh o addr p w = .ok w') ↔
      ∀ i < newTxCount o p w, ∃ tx, dataMempoolGet p i = some tx ∧
        blockComputeSize o addr w + tx.size < maxBlockSize := by
  rw [refresh, addMempoolTxs_ok_iff]
  simp only [Nat.zero_add]

/-- The entry for a transaction without inputs and with 29125 outputs, on a big-endian
host: 1048510 bytes, within the limit of `m_tx_gen`. -/
def wideTx : MTx :=
  mempoolEntry .big sha256 ⟨fun _ => 0, List.replicate 32 0⟩
    (Mem.ofBytes [0, 0, 0, 0, 0x71, 0xc5, 0, 0, 0, 0])

theorem wideTx_size : wideTx.size = 1048510 := by decide

/-- It is the only transaction that the mempool holds when the first refresh of a block
comes, and the miner calls `fatal`. -/
theorem wideTx_refresh_fatal :
    ¬ ∀ (o : ByteOrder) (H : Digest) (addr : UInt8) (b : NewBlock) (memory started : Mem)
      (p : Mempool), startBlock o H addr b memory = .ok started →
      (∀ i tx, dataMempoolGet p i = some tx → tx.size ≤ maxTxSize) →
      ∀ text, refresh o addr p started ≠ .error (.fatal text) := by
  intro hall
  have hstarts : StartsWell .big sha256 0 soloBlock fun _ => 0 := .inl rfl
  obtain ⟨started, hstart, hholds⟩ := startBlock_holds hstarts
  refine hall .big sha256 0 soloBlock (fun _ => 0) started (poolOf [wideTx]) hstart ?_
    "Block overflow during block_add_tx" ?_
  · intro i tx htx
    have hmem : tx ∈ [wideTx] := by
      unfold dataMempoolGet at htx
      split at htx
      · cases htx
      · exact List.mem_of_getElem? htx
    rw [List.mem_singleton.mp hmem, wideTx_size]
    decide
  · have hnew : newTxCount .big (poolOf [wideTx]) started = 1 := by
      unfold newTxCount
      rw [btoui_uitob hholds.count]
      decide
    have hget : dataMempoolGet (poolOf [wideTx]) 0 = some wideTx := rfl
    have hfatal : blockAddTx .big 0 started (some wideTx) =
        .error (.fatal "Block overflow during block_add_tx") := by
      apply blockAddTx_fatal
      rw [wideTx_size]
      exact Nat.le_trans (by decide) (Nat.add_le_add_right (header_le_blockComputeSize ..) _)
    rw [refresh, hnew, addMempoolTxs, hget, hfatal]
    rfl

end Freecoin
