import Freecoin.Blocks

/-!
# Serialised headers and transactions, read back

Fields are written with `uitob` and `ustob` and read with `btoui` and `btous`.
Positions never collide, so a field shows what was last written to it and
nothing else. What the decoder makes of it depends on the host: `ntohl` is
applied to a number that was put together from bytes in a fixed order already,
and reverses it on a little-endian host. There only the numbers whose bytes
read the same both ways come back.
-/

namespace Freecoin

open Lib

/-! ## Block headers -/

/-- The fields of a block header that are written with `uitob`. -/
inductive HeaderField : Type where
  | time
  | height
  | nonce
  | txCount
deriving DecidableEq

def HeaderField.pos : HeaderField → ℕ
  | .time => posBlockTime
  | .height => posBlockHeight
  | .nonce => posBlockNonce
  | .txCount => posBlockTxCount

/-- A field as the rest of the program reads it. -/
def readField (o : ByteOrder) (block : Mem) (f : HeaderField) : UInt32 :=
  btoui o (block.shift f.pos)

/-- `uitob(x, &block[..])` for one field. -/
def writeField (block : Mem) (f : HeaderField) (x : UInt32) : Mem := block.write f.pos (uitob x)

/-- The header comes back as it was given to `block_add_header`. -/
structure HeaderReads (o : ByteOrder) (time height : UInt32) (prevHash : Mem) (target : UInt8)
    (block : Mem) : Prop where
  time : readField o block .time = time
  height : readField o block .height = height
  nonce : readField o block .nonce = 0
  txCount : readField o block .txCount = 0
  target : block posBlockTarget = target
  prevHash : blockGetPrevHash block = prevHash.slice 0 sizeSha256

/-- Writing a field changes the decoded value of no other one. -/
structure WritesAlone (o : ByteOrder) (block : Mem) (f : HeaderField) (x : UInt32) : Prop where
  field : ∀ g, g ≠ f → readField o (writeField block f x) g = readField o block g
  target : writeField block f x posBlockTarget = block posBlockTarget
  prevHash : blockGetPrevHash (writeField block f x) = blockGetPrevHash block

theorem writesAlone (o : ByteOrder) (block : Mem) (f : HeaderField) (x : UInt32) :
    WritesAlone o block f x := by
  refine ⟨?_, ?_, ?_⟩
  · intro g hne
    apply btoui_congr
    intro i hi
    show block.write f.pos (uitob x) (g.pos + i) = block (g.pos + i)
    have hapart : g.pos + i < f.pos ∨ f.pos + (uitob x).length ≤ g.pos + i := by
      rw [uitob_length]
      cases f <;> cases g <;> simp [HeaderField.pos] at hne ⊢ <;> omega
    rcases hapart with h | h
    · exact Mem.write_before _ h
    · exact Mem.write_after h
  · cases f <;> simp [writeField, HeaderField.pos, Mem.write, uitob, bytes32]
  · refine Mem.slice_write_disjoint ?_
    cases f <;> simp [HeaderField.pos]

section AddHeader

variable (version : UInt16) (time height : UInt32) (prevHash : Mem) (target : UInt8) (dest : Mem)

/-- The four bytes of each field after `block_add_header`. -/
theorem blockAddHeader_field (f : HeaderField) :
    (blockAddHeader version time height prevHash target dest).slice f.pos 4 =
      uitob (match f with
        | .time => time
        | .height => height
        | .nonce => 0
        | .txCount => 0) := by
  unfold blockAddHeader
  cases f with
  | time =>
      iterate 6 rw [Mem.slice_write_disjoint (by simp [HeaderField.pos])]
      exact Mem.slice_write_of_length (uitob_length _)
  | height =>
      iterate 5 rw [Mem.slice_write_disjoint (by simp [HeaderField.pos])]
      exact Mem.slice_write_of_length (uitob_length _)
  | nonce =>
      rw [Mem.slice_write_disjoint (by simp [HeaderField.pos])]
      exact Mem.slice_write_of_length (uitob_length _)
  | txCount => exact Mem.slice_write_of_length (uitob_length _)

theorem blockAddHeader_prevHash :
    blockGetPrevHash (blockAddHeader version time height prevHash target dest) =
      prevHash.slice 0 sizeSha256 := by
  unfold blockGetPrevHash blockAddHeader
  iterate 4 rw [Mem.slice_write_disjoint (by simp)]
  exact Mem.slice_write_of_length (Mem.slice_length ..)

theorem blockAddHeader_target :
    blockAddHeader version time height prevHash target dest posBlockTarget = target := by
  unfold blockAddHeader
  rw [Mem.write_before _ (by simp), Mem.write_before _ (by simp)]
  exact Mem.write_in (i := 0) rfl

/-- **The header codec.** A header reads back as it was written, and each field can
be written alone, if and only if the host is big-endian or both time and height
read the same both ways. -/
theorem header_roundTrip_iff (o : ByteOrder) (version : UInt16) (time height : UInt32)
    (prevHash : Mem) (target : UInt8) (dest : Mem) :
    (HeaderReads o time height prevHash target
        (blockAddHeader version time height prevHash target dest) ∧
      ∀ block f x, WritesAlone o block f x) ↔
    (o = .big ∨ ((bytes32 time).Palindrome ∧ (bytes32 height).Palindrome)) := by
  have hread : ∀ f, readField o (blockAddHeader version time height prevHash target dest) f =
      ntohl o _ := fun f =>
    btoui_uitob (blockAddHeader_field version time height prevHash target dest f)
  have hzero : ntohl o 0 = 0 := by cases o <;> decide
  rw [or_and_left, ← ntohl_eq_self_iff, ← ntohl_eq_self_iff]
  constructor
  · rintro ⟨hreads, -⟩
    exact ⟨(hread .time).symm.trans hreads.time, (hread .height).symm.trans hreads.height⟩
  · rintro ⟨htime, hheight⟩
    refine ⟨⟨(hread .time).trans htime, (hread .height).trans hheight, (hread .nonce).trans hzero,
      (hread .txCount).trans hzero, ?_, ?_⟩, writesAlone o⟩
    · exact blockAddHeader_target ..
    · exact blockAddHeader_prevHash ..

end AddHeader

/-- On a little-endian host a block of height 1 reads back with height 2²⁴. -/
theorem header_height_one_little :
    ¬ ∀ (o : ByteOrder) (version : UInt16) (time height : UInt32) (prevHash : Mem)
      (target : UInt8) (dest : Mem), HeaderReads o time height prevHash target
        (blockAddHeader version time height prevHash target dest) := by
  intro hall
  have hreads := hall .little 1 0 1 (fun _ => 0) 0 fun _ => 0
  exact absurd hreads.height (by decide)

/-! ## Transactions -/

/-- An input, with its byte strings at the sizes of the format. -/
structure TxIn : Type where
  ref : Bytes
  index : UInt16
  pubkey : Bytes
  sig : Bytes
  ref_length : ref.length = 32
  pubkey_length : pubkey.length = 128
  sig_length : sig.length = 128

structure TxOut : Type where
  address : Bytes
  amount : UInt32
  address_length : address.length = 32

/-- `r_tx_in_gen` on the fields of an input. -/
def TxIn.gen (x : TxIn) (dest : Mem) : Mem :=
  rTxInGen (Mem.ofBytes x.ref) x.index (Mem.ofBytes x.pubkey) (Mem.ofBytes x.sig) dest

/-- `r_tx_out_gen` on the fields of an output. -/
def TxOut.gen (x : TxOut) (dest : Mem) : Mem := rTxOutGen (Mem.ofBytes x.address) x.amount dest

/-- Elements of `size` bytes generated one after the other, from element `i` on. -/
def genArray {α : Type} (size : ℕ) (gen : α → Mem → Mem) : List α → ℕ → Mem → Mem
  | [], _, dest => dest
  | x :: rest, i, dest =>
      genArray size gen rest (i + 1) (dest.splice (size * i) (gen x (dest.shift (size * i))))

/-- The transaction comes back from `data` as it was given to `m_tx_gen`. -/
structure TxReads (o : ByteOrder) (ins : List TxIn) (outs : List TxOut) (lockTime : UInt32)
    (data : Mem) : Prop where
  inCount : (btous o (data.shift posTxInCount)).toNat = ins.length
  outCount : (btous o (data.shift posTxOutCount)).toNat = outs.length
  lockTime : btoui o (data.shift posTxLockTime) = lockTime
  ref : ∀ i (h : i < ins.length), data.slice (10 + 290 * i) 32 = ins[i].ref
  index : ∀ i (h : i < ins.length), btous o (data.shift (10 + 290 * i + 32)) = ins[i].index
  pubkey : ∀ i (h : i < ins.length), data.slice (10 + 290 * i + 34) 128 = ins[i].pubkey
  sig : ∀ i (h : i < ins.length), data.slice (10 + 290 * i + 162) 128 = ins[i].sig
  address : ∀ j (h : j < outs.length),
    data.slice (10 + 290 * ins.length + 36 * j) 32 = outs[j].address
  amount : ∀ j (h : j < outs.length),
    btoui o (data.shift (10 + 290 * ins.length + 36 * j + 32)) = outs[j].amount

/-- The numbers of a transaction read the same both ways. -/
structure TxPalindrome (ins : List TxIn) (outs : List TxOut) (lockTime : UInt32) : Prop where
  inCount : (bytes16 (UInt16.ofNat ins.length)).Palindrome
  outCount : (bytes16 (UInt16.ofNat outs.length)).Palindrome
  lockTime : (bytes32 lockTime).Palindrome
  index : ∀ x ∈ ins, (bytes16 x.index).Palindrome
  amount : ∀ x ∈ outs, (bytes32 x.amount).Palindrome

/-! ### Arrays of inputs and outputs -/

/-- What is generated later lies above, so it leaves an element alone. -/
theorem genArray_below {α : Type} {size len : ℕ} {gen : α → Mem → Mem} :
    ∀ (l : List α) (i : ℕ) (dest : Mem) (b : ℕ), b + len ≤ size * i →
      (genArray size gen l i dest).slice b len = dest.slice b len := by
  intro l
  induction l with
  | nil => intro i dest b _; rfl
  | cons x rest ih =>
      intro i dest b hb
      have hsucc : size * (i + 1) = size * i + size := Nat.mul_succ size i
      rw [genArray, ih (i + 1) _ b (by omega), Mem.slice_eq_iff]
      intro k hk
      rw [Mem.splice, if_pos (by omega)]

/-- A region of an element that every generator call fills the same way is found in
the array at its place in the element. -/
theorem genArray_slice {α : Type} {size a len : ℕ} {gen : α → Mem → Mem} (ha : a + len ≤ size)
    (hgen : ∀ x (m p : Mem), (gen x m).slice a len = (gen x p).slice a len) (p : Mem) :
    ∀ (l : List α) (i : ℕ) (dest : Mem) (j : ℕ) (h : j < l.length),
      (genArray size gen l i dest).slice (size * (i + j) + a) len = (gen l[j] p).slice a len := by
  intro l
  induction l with
  | nil => intro i dest j h; exact absurd h (Nat.not_lt_zero j)
  | cons x rest ih =>
      intro i dest j h
      cases j with
      | zero =>
          have hsucc : size * (i + 1) = size * i + size := Nat.mul_succ size i
          show (genArray size gen rest (i + 1) _).slice (size * i + a) len = (gen x p).slice a len
          rw [genArray_below rest (i + 1) _ _ (by omega), hgen x p (dest.shift (size * i)),
            Mem.slice_eq_iff]
          intro k hk
          rw [Mem.splice, if_neg (by omega), Nat.add_assoc, Nat.add_sub_cancel_left]
      | succ j =>
          have hrest := ih (i + 1) (dest.splice (size * i) (gen x (dest.shift (size * i)))) j
            (by simpa using h)
          rw [genArray, List.getElem_cons_succ, ← hrest, Nat.add_assoc, Nat.add_comm 1 j]

section Element

variable (m : Mem)

theorem TxIn.gen_ref (x : TxIn) : (x.gen m).slice 0 32 = x.ref := by
  unfold TxIn.gen rTxInGen
  iterate 3 rw [Mem.slice_write_disjoint (by simp)]
  exact (Mem.slice_write_of_length (by simp)).trans (Mem.slice_load _ x.ref_length)

theorem TxIn.gen_index (x : TxIn) : (x.gen m).slice 32 2 = ustob x.index := by
  unfold TxIn.gen rTxInGen
  iterate 2 rw [Mem.slice_write_disjoint (by simp)]
  exact Mem.slice_write_of_length rfl

theorem TxIn.gen_pubkey (x : TxIn) : (x.gen m).slice 34 128 = x.pubkey := by
  unfold TxIn.gen rTxInGen
  rw [Mem.slice_write_disjoint (by simp)]
  exact (Mem.slice_write_of_length (by simp)).trans (Mem.slice_load _ x.pubkey_length)

theorem TxIn.gen_sig (x : TxIn) : (x.gen m).slice 162 128 = x.sig := by
  unfold TxIn.gen rTxInGen
  exact (Mem.slice_write_of_length (by simp)).trans (Mem.slice_load _ x.sig_length)

theorem TxOut.gen_address (x : TxOut) : (x.gen m).slice 0 32 = x.address := by
  unfold TxOut.gen rTxOutGen
  rw [Mem.slice_write_disjoint (by simp)]
  exact (Mem.slice_write_of_length (by simp)).trans (Mem.slice_load _ x.address_length)

theorem TxOut.gen_amount (x : TxOut) : (x.gen m).slice 32 4 = uitob x.amount := by
  unfold TxOut.gen rTxOutGen
  exact Mem.slice_write_of_length rfl

end Element

/-- A field of the elements, in the array. -/
theorem genArray_field {α : Type} {size a len : ℕ} {gen : α → Mem → Mem} {field : α → Bytes}
    (ha : a + len ≤ size) (hfield : ∀ m x, (gen x m).slice a len = field x) (l : List α)
    (dest : Mem) (j : ℕ) (h : j < l.length) :
    (genArray size gen l 0 dest).slice (size * j + a) len = field l[j] := by
  have hslice := genArray_slice ha
    (fun x m p => (hfield m x).trans (hfield p x).symm) (fun _ => 0) l 0 dest j h
  rw [Nat.zero_add] at hslice
  exact hslice.trans (hfield _ _)

/-! ### The whole transaction -/

section Whole

variable (o : ByteOrder) (version : UInt16) (ins : List TxIn) (outs : List TxOut)
  (lockTime : UInt32) (insMem outsMem dest : Mem)

/-- The memory that `m_tx_gen` fills for these inputs and outputs. -/
def txData : Mem :=
  rTxGen version (UInt16.ofNat ins.length) (UInt16.ofNat outs.length) lockTime
    (genArray sizeTxInput TxIn.gen ins 0 insMem) (genArray sizeTxOutput TxOut.gen outs 0 outsMem)
    dest

variable {ins outs} (hsize : 10 + 290 * ins.length + 36 * outs.length ≤ maxTxSize)

include hsize

theorem inCount_toNat : (UInt16.ofNat ins.length).toNat = ins.length := by
  rw [UInt16.toNat_ofNat', Nat.mod_eq_of_lt]
  simp only [maxTxSize] at hsize
  omega

theorem outCount_toNat : (UInt16.ofNat outs.length).toNat = outs.length := by
  rw [UInt16.toNat_ofNat', Nat.mod_eq_of_lt]
  simp only [maxTxSize] at hsize
  omega

theorem mTxGen_txData :
    mTxGen version (UInt16.ofNat ins.length) (UInt16.ofNat outs.length) lockTime
      (genArray sizeTxInput TxIn.gen ins 0 insMem) (genArray sizeTxOutput TxOut.gen outs 0 outsMem)
      dest =
    .ok (txData version ins outs lockTime insMem outsMem dest,
      10 + 290 * ins.length + 36 * outs.length) := by
  unfold mTxGen
  rw [inCount_toNat hsize, outCount_toNat hsize]
  exact if_neg (Nat.not_lt.mpr hsize)

/-- A field of an input, in the transaction. -/
theorem txData_in {a len : ℕ} {field : TxIn → Bytes} (ha : a + len ≤ 290)
    (hfield : ∀ m x, (TxIn.gen x m).slice a len = field x) {i : ℕ} (hi : i < ins.length) :
    (txData version ins outs lockTime insMem outsMem dest).slice (10 + 290 * i + a) len =
      field ins[i] := by
  have hin : 290 * i + a + len ≤ sizeTxInput * (UInt16.ofNat ins.length).toNat := by
    rw [inCount_toNat hsize, sizeTxInput]
    omega
  rw [txData, Nat.add_assoc]
  exact (rTxGen_ins _ _ _ _ _ _ _ hin).trans (genArray_field ha hfield ins insMem i hi)

/-- A field of an output, in the transaction. -/
theorem txData_out {a len : ℕ} {field : TxOut → Bytes} (ha : a + len ≤ 36)
    (hfield : ∀ m x, (TxOut.gen x m).slice a len = field x) {j : ℕ} (hj : j < outs.length) :
    (txData version ins outs lockTime insMem outsMem dest).slice
      (10 + 290 * ins.length + 36 * j + a) len = field outs[j] := by
  have hout : 36 * j + a + len ≤ sizeTxOutput * (UInt16.ofNat outs.length).toNat := by
    rw [outCount_toNat hsize, sizeTxOutput]
    omega
  have hslice := rTxGen_outs version (UInt16.ofNat ins.length) _ lockTime
    (genArray sizeTxInput TxIn.gen ins 0 insMem) (genArray sizeTxOutput TxOut.gen outs 0 outsMem)
    dest hout
  rw [inCount_toNat hsize] at hslice
  rw [txData, Nat.add_assoc _ (36 * j) a]
  exact hslice.trans (genArray_field ha hfield outs outsMem j hj)

/-- The byte strings come back on every host, and every number as `ntohl` or
`ntohs` leaves it. -/
theorem txReads_iff :
    TxReads o ins outs lockTime (txData version ins outs lockTime insMem outsMem dest) ↔
      ntohs o (UInt16.ofNat ins.length) = UInt16.ofNat ins.length ∧
      ntohs o (UInt16.ofNat outs.length) = UInt16.ofNat outs.length ∧
      ntohl o lockTime = lockTime ∧
      (∀ x ∈ ins, ntohs o x.index = x.index) ∧ ∀ x ∈ outs, ntohl o x.amount = x.amount := by
  have hin := btous_ustob (o := o) (rTxGen_inCount version (UInt16.ofNat ins.length)
    (UInt16.ofNat outs.length) lockTime (genArray sizeTxInput TxIn.gen ins 0 insMem)
    (genArray sizeTxOutput TxOut.gen outs 0 outsMem) dest)
  have hout := btous_ustob (o := o) (rTxGen_outCount version (UInt16.ofNat ins.length)
    (UInt16.ofNat outs.length) lockTime (genArray sizeTxInput TxIn.gen ins 0 insMem)
    (genArray sizeTxOutput TxOut.gen outs 0 outsMem) dest)
  have hlock := btoui_uitob (o := o) (rTxGen_lockTime version (UInt16.ofNat ins.length)
    (UInt16.ofNat outs.length) lockTime (genArray sizeTxInput TxIn.gen ins 0 insMem)
    (genArray sizeTxOutput TxOut.gen outs 0 outsMem) dest)
  have hindex : ∀ i (hi : i < ins.length), btous o
      ((txData version ins outs lockTime insMem outsMem dest).shift (10 + 290 * i + 32)) =
        ntohs o ins[i].index := fun i hi =>
    btous_ustob (txData_in version lockTime insMem outsMem dest hsize (by norm_num)
      TxIn.gen_index hi)
  have hamount : ∀ j (hj : j < outs.length), btoui o
      ((txData version ins outs lockTime insMem outsMem dest).shift
        (10 + 290 * ins.length + 36 * j + 32)) = ntohl o outs[j].amount := fun j hj =>
    btoui_uitob (txData_out version lockTime insMem outsMem dest hsize (by norm_num)
      TxOut.gen_amount hj)
  constructor
  · intro h
    refine ⟨?_, ?_, hlock.symm.trans h.lockTime, ?_, ?_⟩
    · exact UInt16.toNat_inj.mp
        ((congrArg UInt16.toNat hin.symm).trans (h.inCount.trans (inCount_toNat hsize).symm))
    · exact UInt16.toNat_inj.mp
        ((congrArg UInt16.toNat hout.symm).trans (h.outCount.trans (outCount_toNat hsize).symm))
    · intro x hx
      obtain ⟨i, hi, rfl⟩ := List.getElem_of_mem hx
      exact (hindex i hi).symm.trans (h.index i hi)
    · intro x hx
      obtain ⟨j, hj, rfl⟩ := List.getElem_of_mem hx
      exact (hamount j hj).symm.trans (h.amount j hj)
  · rintro ⟨hins, houts, hlt, hidx, hamt⟩
    exact {
      inCount := (congrArg UInt16.toNat (hin.trans hins)).trans (inCount_toNat hsize)
      outCount := (congrArg UInt16.toNat (hout.trans houts)).trans (outCount_toNat hsize)
      lockTime := hlock.trans hlt
      ref := fun i hi => txData_in version lockTime insMem outsMem dest hsize (by norm_num)
        TxIn.gen_ref hi
      index := fun i hi => (hindex i hi).trans (hidx _ (List.getElem_mem hi))
      pubkey := fun i hi => txData_in version lockTime insMem outsMem dest hsize (by norm_num)
        TxIn.gen_pubkey hi
      sig := fun i hi => txData_in version lockTime insMem outsMem dest hsize (by norm_num)
        TxIn.gen_sig hi
      address := fun j hj => txData_out version lockTime insMem outsMem dest hsize (by norm_num)
        TxOut.gen_address hj
      amount := fun j hj => (hamount j hj).trans (hamt _ (List.getElem_mem hj)) }

end Whole

/-- **The transaction codec.** Inputs, outputs and lock time come back from the
serialised transaction if and only if the host is big-endian or every number in
it reads the same both ways. -/
theorem tx_roundTrip_iff (o : ByteOrder) (version : UInt16) (ins : List TxIn) (outs : List TxOut)
    (lockTime : UInt32) (insMem outsMem dest : Mem)
    (hsize : 10 + 290 * ins.length + 36 * outs.length ≤ maxTxSize) :
    (∃ data, mTxGen version (UInt16.ofNat ins.length) (UInt16.ofNat outs.length) lockTime
        (genArray sizeTxInput TxIn.gen ins 0 insMem)
        (genArray sizeTxOutput TxOut.gen outs 0 outsMem) dest =
          .ok (data, 10 + 290 * ins.length + 36 * outs.length) ∧
        TxReads o ins outs lockTime data) ↔
    (o = .big ∨ TxPalindrome ins outs lockTime) := by
  have hgen := mTxGen_txData version lockTime insMem outsMem dest hsize
  have hreads := txReads_iff o version lockTime insMem outsMem dest hsize
  simp only [ntohs_eq_self_iff, ntohl_eq_self_iff] at hreads
  constructor
  · rintro ⟨data, hok, hdata⟩
    obtain rfl : _ = data := congrArg Prod.fst (Except.ok.inj (hgen.symm.trans hok))
    obtain ⟨hin, hout, hlock, hindex, hamount⟩ := hreads.mp hdata
    by_cases hbig : o = .big
    · exact .inl hbig
    · exact .inr ⟨hin.resolve_left hbig, hout.resolve_left hbig, hlock.resolve_left hbig,
        fun x hx => (hindex x hx).resolve_left hbig, fun x hx => (hamount x hx).resolve_left hbig⟩
  · intro hcond
    refine ⟨_, hgen, hreads.mpr ?_⟩
    rcases hcond with hbig | hpal
    · exact ⟨.inl hbig, .inl hbig, .inl hbig, fun _ _ => .inl hbig, fun _ _ => .inl hbig⟩
    · exact ⟨.inr hpal.inCount, .inr hpal.outCount, .inr hpal.lockTime,
        fun x hx => .inr (hpal.index x hx), fun x hx => .inr (hpal.amount x hx)⟩

/-- An output of one unit to an all-zero address. -/
def unitOut : TxOut := ⟨List.replicate 32 0, 1, rfl⟩

/-- An input that spends output 2 of another transaction, and one for its output 259. -/
def someIns : List TxIn :=
  [⟨List.replicate 32 3, 2, List.replicate 128 4, List.replicate 128 5, rfl, rfl, rfl⟩,
    ⟨List.replicate 32 3, 259, List.replicate 128 4, List.replicate 128 6, rfl, rfl, rfl⟩]

/-- Three outputs. -/
def someOuts : List TxOut :=
  [unitOut, ⟨List.replicate 32 8, 70000, rfl⟩, ⟨List.replicate 32 9, 5000000, rfl⟩]

theorem tx_roundTrip_someIns_big :
    ∃ data, mTxGen 1 2 3 7 (genArray sizeTxInput TxIn.gen someIns 0 fun _ => 0)
        (genArray sizeTxOutput TxOut.gen someOuts 0 fun _ => 0) (fun _ => 0) =
          .ok (data, 698) ∧ TxReads .big someIns someOuts 7 data :=
  (tx_roundTrip_iff .big 1 someIns someOuts 7 (fun _ => 0) (fun _ => 0) (fun _ => 0)
    (by decide)).mpr (.inl rfl)

/-- On a little-endian host a transaction with one output reads back with 256. -/
theorem tx_one_output_little :
    ¬ ∀ (o : ByteOrder) (version : UInt16) (ins : List TxIn) (outs : List TxOut)
      (lockTime : UInt32) (insMem outsMem dest : Mem),
      10 + 290 * ins.length + 36 * outs.length ≤ maxTxSize →
      ∃ data, mTxGen version (UInt16.ofNat ins.length) (UInt16.ofNat outs.length) lockTime
        (genArray sizeTxInput TxIn.gen ins 0 insMem)
        (genArray sizeTxOutput TxOut.gen outs 0 outsMem) dest =
          .ok (data, 10 + 290 * ins.length + 36 * outs.length) ∧
        TxReads o ins outs lockTime data := by
  intro hall
  obtain ⟨data, hok, hdata⟩ := hall .little 0 [] [unitOut] 7 (fun _ => 0) (fun _ => 0)
    (fun _ => 0) (by decide)
  obtain rfl : _ = data := congrArg Prod.fst (Except.ok.inj hok)
  exact absurd hdata.outCount (by decide)

end Freecoin
