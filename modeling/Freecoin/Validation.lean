import Freecoin.Build

/-!
# validation.c: connecting a block to the chain

`valid_connectable_to_chain` is meant to walk back from a block until it
meets the chain. It looks at the first block only and leaves the rest of the
walk to `_data_limbo_scan_can_trace_back`, whose body is empty. The test of
the block's validity breaks off in the middle of a line, `data_chain_exists`
is called without the height (read as the height of the block at hand), and
`valid_block` is a parameter as everywhere.
-/

namespace Freecoin

open Lib

/-- How the unfinished `if ( ! valid_block(buffer)` is read: with the parenthesis it
lacks it guards the rest of the function, and without it it is not there. -/
inductive TestReading : Type where
  | guardsRest
  | notThere

/-- Whether the rest of the function runs. -/
def TestReading.passes (valid : Bool) : TestReading → Bool
  | .guardsRest => !valid
  | .notThere => true

/-- The memory that `valid_connectable_to_chain` is handed uninitialised; `traced` is
what the caller of the empty function finds in the place of its result. -/
structure ConnectMem : Type where
  buffer : Mem
  startHashBuffer : Mem
  height : HeightMem
  chainBuffer : Mem
  traced : ℤ

/-- `height > data_chain_get_height() - REASONABLE_CONFIRMATIONS`, over `uint`. -/
def inReach (height currHeight : UInt32) : Bool := currHeight - reasonableConfirmations < height

variable {B : Bdb} (env : Env B)

/-- The two tests a block has to pass to be looked up on the chain. -/
def isVisited (reading : TestReading) (u : ConnectMem) (dbs : Dbs) (startHash : Mem) : Bool :=
  let buffer := (dataBlocksGet B dbs startHash u.buffer).2
  reading.passes (env.validBlock buffer) &&
    inReach (btoui env.host (buffer.shift posBlockHeight)) (dataChainGetHeight env u.height dbs)

/-- `_internal_valid_connectable_to_chain(dbs, start_hash, check_validity, buffer)`: the
result, and `start_hash`. -/
def internalValidConnectableToChain (reading : TestReading) (u : ConnectMem) (dbs : Dbs)
    (startHash : Mem) (_checkValidity : UInt8) : ℤ × Mem :=
  let buffer := (dataBlocksGet B dbs startHash u.buffer).2
  if isVisited env reading u dbs startHash then
    if dataChainExists env u.chainBuffer dbs (btoui env.host (buffer.shift posBlockHeight))
        startHash then (1, startHash)
    else (u.traced, startHash.write 0 (buffer.slice posBlockPrevHash sizeSha256))
  else (0, startHash)

/-- `valid_connectable_to_chain(dbs, start_hash, check_validity)`: the result, and the
`start_hash` of the caller. -/
def validConnectableToChain (reading : TestReading) (u : ConnectMem) (dbs : Dbs)
    (startHash : Mem) (checkValidity : UInt8) : ℤ × Mem :=
  let startHashBuffer := u.startHashBuffer.write 0 (startHash.slice 0 sizeSha256)
  ((internalValidConnectableToChain env reading u dbs startHashBuffer checkValidity).1, startHash)

/-! ## The specification -/

/-- A record that is a block, filed under `x`. -/
structure StoredBlock (dbs : Dbs) (x r : Bytes) : Prop where
  stored : dbs.blocks.lookup x = some r
  header : sizeBlockHeader ≤ r.length
  fits : r.length ≤ maxBlockSize

/-- Less than `REASONABLE_CONFIRMATIONS` below the top, over the integers. -/
def Recent (top : UInt32) (r : Bytes) : Prop :=
  (top.toNat : ℤ) - reasonableConfirmations.toNat < (recordHeight env r).toNat

/-- Following `prev_hash` through stored and recent blocks leads to the chain. -/
inductive Connectable (dbs : Dbs) (top : UInt32) : Bytes → Prop where
  | onChain {x r : Bytes} : StoredBlock dbs x r → Recent env top r → OnChain env dbs x →
      Connectable dbs top x
  | step {x r : Bytes} : StoredBlock dbs x r → Recent env top r → ¬ OnChain env dbs x →
      Connectable dbs top (recordPrevHash r) → Connectable dbs top x

/-- The walk meets a block that `valid_block` rejects before it reaches the chain. -/
inductive MeetsInvalid (dbs : Dbs) (top : UInt32) : Bytes → Prop where
  | here {x r : Bytes} : StoredBlock dbs x r → ¬ OnChain env dbs x →
      env.validBlock (Mem.ofBytes r) = false → MeetsInvalid dbs top x
  | later {x r : Bytes} : StoredBlock dbs x r → Recent env top r → ¬ OnChain env dbs x →
      MeetsInvalid dbs top (recordPrevHash r) → MeetsInvalid dbs top x

/-- The result is the documented one, and the caller's `start_hash` is untouched. -/
structure ChecksConnectable (dbs : Dbs) (top : UInt32) (startHash : Mem) (checkValidity : UInt8)
    (result : ℤ × Mem) : Prop where
  unchanged : result.2 = startHash
  connectable : checkValidity = 0 → Connectable env dbs top (startHash.slice 0 sizeSha256) →
    result.1 = 1
  unconnectable : checkValidity = 0 → ¬ Connectable env dbs top (startHash.slice 0 sizeSha256) →
    result.1 = 0
  invalid : 0 < checkValidity →
    (result.1 = -1 ↔ MeetsInvalid env dbs top (startHash.slice 0 sizeSha256))

/-- A gap-free chain whose blocks fit a block buffer. -/
structure BlockChain (dbs : Dbs) (top : UInt32) : Prop extends GapFreeChain env dbs top where
  fits : ∀ h x r, ChainHas env dbs h x → dbs.blocks.lookup x = some r → r.length ≤ maxBlockSize

section Spec

variable {env} {dbs : Dbs} {top : UInt32} {x : Bytes}

theorem connectable_of_onChain (hx : OnChain env dbs x) :
    Connectable env dbs top x ↔ ∃ r, StoredBlock dbs x r ∧ Recent env top r := by
  constructor
  · intro h
    cases h with
    | onChain hr hrecent _ => exact ⟨_, hr, hrecent⟩
    | step _ _ hoff _ => exact absurd hx hoff
  · rintro ⟨r, hr, hrecent⟩
    exact .onChain hr hrecent hx

theorem checksConnectable_def {startHash : Mem} {checkValidity : UInt8} {result : ℤ × Mem}
    (h : result.2 = startHash) :
    ChecksConnectable env dbs top startHash checkValidity result ↔
      (checkValidity = 0 →
        (Connectable env dbs top (startHash.slice 0 sizeSha256) → result.1 = 1) ∧
        (¬ Connectable env dbs top (startHash.slice 0 sizeSha256) → result.1 = 0)) ∧
      (0 < checkValidity →
        (result.1 = -1 ↔ MeetsInvalid env dbs top (startHash.slice 0 sizeSha256))) :=
  ⟨fun hc => ⟨fun h0 => ⟨hc.connectable h0, hc.unconnectable h0⟩, hc.invalid⟩,
    fun hc => ⟨h, fun h0 => (hc.1 h0).1, fun h0 => (hc.1 h0).2, hc.2⟩⟩

theorem MeetsInvalid.offChain (h : MeetsInvalid env dbs top x) : ¬ OnChain env dbs x := by
  cases h with
  | here _ hoff _ => exact hoff
  | later _ _ hoff _ => exact hoff

end Spec

/-! ## What the function computes -/

section Passed

variable {env : Env .passed} {dbs : Dbs} {top : UInt32} {startHash : Mem}

/-- A block of the chain is stored, at its own height. -/
theorem BlockChain.stored (hchain : BlockChain env dbs top) {x : Bytes} {h : UInt32}
    (hhas : ChainHas env dbs h x) : ∃ r, StoredBlock dbs x r ∧ recordHeight env r = h := by
  have hle : h ≤ top := by
    by_contra hgt
    have hnone := hchain.above h (UInt32.not_le.mp hgt) fun _ => 0
    exact absurd ((hhas _).1.symm.trans hnone) (by decide)
  obtain ⟨x', r, hhas', hr, hheader, hheight⟩ := hchain.upto h hle
  obtain rfl := hhas.unique hhas'
  exact ⟨r, ⟨hr, hheader, hchain.fits h x r hhas hr⟩, hheight⟩

/-- A block of the chain is connectable if it is less than 6 below the top. -/
theorem BlockChain.connectable_iff (hchain : BlockChain env dbs top) {x : Bytes} {h : UInt32}
    (hhas : ChainHas env dbs h x) : Connectable env dbs top x ↔ top.toNat < h.toNat + 6 := by
  obtain ⟨r, hr, hheight⟩ := hchain.stored hhas
  have hrecent : Recent env top r ↔ top.toNat < h.toNat + 6 := by
    rw [Recent, hheight, show reasonableConfirmations.toNat = 6 from rfl]
    omega
  rw [connectable_of_onChain ⟨h, hhas⟩, ← hrecent]
  constructor
  · rintro ⟨r', hr', hrecent'⟩
    obtain rfl := Option.some_inj.mp (hr.stored.symm.trans hr'.stored)
    exact hrecent'
  · exact fun h => ⟨r, hr, h⟩

/-- At the height of the block at hand, `data_chain_exists` says whether the hash is
on the chain. -/
theorem BlockChain.exists_iff (hchain : BlockChain env dbs top) (u : ConnectMem)
    (startHash : Mem) :
    dataChainExists env u.chainBuffer dbs (btoui env.host
        ((dataBlocksGet .passed dbs startHash u.buffer).2.shift posBlockHeight)) startHash = true ↔
      OnChain env dbs (startHash.slice 0 sizeSha256) := by
  constructor
  · intro h
    simp only [dataChainExists, Bool.and_eq_true, beq_iff_eq] at h
    generalize btoui env.host _ = height at h
    by_cases hle : height ≤ top
    · obtain ⟨x, r, hhas, -⟩ := hchain.upto height hle
      refine ⟨height, ?_⟩
      rw [← h.2, (hhas u.chainBuffer).2]
      exact hhas
    · have hnone := hchain.above height (UInt32.not_le.mp hle) u.chainBuffer
      exact absurd (h.1.symm.trans hnone) (by decide)
  · rintro ⟨h, hhas⟩
    obtain ⟨r, hr, hheight⟩ := hchain.stored hhas
    have hbuffer : (dataBlocksGet .passed dbs startHash u.buffer).2 = u.buffer.load r := by
      rcases dataBlocksGet_cases dbs startHash u.buffer with ⟨r', hr', _, hget⟩ | ⟨hnone, _⟩
      · obtain rfl := Option.some_inj.mp (hr'.symm.trans hr.stored)
        rw [hget]
      · exact absurd hr.fits (Nat.not_le.mpr (hnone r hr.stored))
    have hread : btoui env.host ((u.buffer.load r).shift posBlockHeight) = h :=
      (blockGetHeight_of_header_eq (header_load hr.header) env.host).trans hheight
    rw [hbuffer, hread, dataChainExists, (hhas u.chainBuffer).1, (hhas u.chainBuffer).2]
    simp

/-- A block that passes the tests is answered with 1 on the chain, and otherwise with
what the empty function left. -/
theorem validConnectableToChain_eq (hchain : BlockChain env dbs top) (reading : TestReading)
    (u : ConnectMem) (startHash : Mem) (checkValidity : UInt8) :
    (OnChain env dbs (startHash.slice 0 sizeSha256) →
      (validConnectableToChain env reading u dbs startHash checkValidity).1 =
        if isVisited env reading u dbs startHash then 1 else 0) ∧
    (¬ OnChain env dbs (startHash.slice 0 sizeSha256) →
      (validConnectableToChain env reading u dbs startHash checkValidity).1 =
        if isVisited env reading u dbs startHash then u.traced else 0) := by
  have hcopy : (u.startHashBuffer.write 0 (startHash.slice 0 sizeSha256)).slice 0 sizeSha256 =
      startHash.slice 0 sizeSha256 := Mem.slice_write_of_length (Mem.slice_length ..)
  have hvisited : isVisited env reading u dbs
      (u.startHashBuffer.write 0 (startHash.slice 0 sizeSha256)) =
        isVisited env reading u dbs startHash := by
    rw [isVisited, isVisited, dataBlocksGet_congr dbs hcopy]
  have hon := hchain.exists_iff u (u.startHashBuffer.write 0 (startHash.slice 0 sizeSha256))
  rw [hcopy] at hon
  simp only [validConnectableToChain, internalValidConnectableToChain, hvisited]
  refine ⟨fun hx => ?_, fun hx => ?_⟩
  · rw [if_pos (hon.mpr hx)]
    exact apply_ite Prod.fst _ _ _
  · rw [if_neg (mt hon.mp hx)]
    exact apply_ite Prod.fst _ _ _

/-- The window of `inReach`, with the difference over `uint` written out. Below 6 the
difference is close to 2³². -/
def InWindow (currHeight height : UInt32) : Prop :=
  (6 ≤ currHeight.toNat ∧ currHeight.toNat < height.toNat + 6) ∨
    (currHeight.toNat < 6 ∧ 2 ^ 32 + currHeight.toNat < height.toNat + 6)

instance (currHeight height : UInt32) : Decidable (InWindow currHeight height) :=
  inferInstanceAs (Decidable (_ ∨ _))

theorem inReach_iff {height currHeight : UInt32} :
    inReach height currHeight = true ↔ InWindow currHeight height := by
  have hcurr := currHeight.toNat_lt
  rw [inReach, decide_eq_true_iff, UInt32.lt_iff_toNat_lt, UInt32.toNat_sub,
    show reasonableConfirmations.toNat = 6 from rfl, InWindow]
  omega

/-- The block at hand is in the window, and the unfinished test lets it through. -/
def InTests (env : Env .passed) (reading : TestReading) (u : ConnectMem) (dbs : Dbs)
    (startHash : Mem) : Prop :=
  let block := (dataBlocksGet .passed dbs startHash u.buffer).2
  (reading = .guardsRest → env.validBlock block = false) ∧
    InWindow (dataChainGetHeight env u.height dbs) (blockGetHeight env.host block)

theorem isVisited_iff {reading : TestReading} {u : ConnectMem} :
    isVisited env reading u dbs startHash = true ↔ InTests env reading u dbs startHash := by
  have hpasses : ∀ valid, reading.passes valid = true ↔
      (reading = .guardsRest → valid = false) := by
    intro valid
    cases reading <;> simp [TestReading.passes]
  rw [isVisited, Bool.and_eq_true, hpasses, inReach_iff]
  exact Iff.rfl

/-- **Connectability.** Whatever the empty function leaves in the place of its result, the
answer is the documented one if and only if a start block on the chain, at
height `h`, passes the two tests just when `top - 6 < h` over the integers, and
any other start block is stopped by them and neither leads to the chain (with
`check_validity = 0`) nor meets an invalid block (otherwise). -/
theorem checksConnectable_iff (env : Env .passed) (reading : TestReading) (u : ConnectMem)
    (dbs : Dbs) (top : UInt32) (hchain : BlockChain env dbs top) (startHash : Mem)
    (checkValidity : UInt8) :
    (∀ traced, ChecksConnectable env dbs top startHash checkValidity
        (validConnectableToChain env reading { u with traced := traced } dbs startHash
          checkValidity)) ↔
      let x := startHash.slice 0 sizeSha256
      (checkValidity = 0 → ∀ h, ChainHas env dbs h x →
        (InTests env reading u dbs startHash ↔ top.toNat < h.toNat + 6)) ∧
      (¬ OnChain env dbs x → ¬ InTests env reading u dbs startHash ∧
        (checkValidity = 0 → ¬ Connectable env dbs top x) ∧
        (0 < checkValidity → ¬ MeetsInvalid env dbs top x)) := by
  have hresult := fun traced => validConnectableToChain_eq hchain reading
    { u with traced := traced } startHash checkValidity
  have htests : ∀ traced, isVisited env reading { u with traced := traced } dbs startHash =
      isVisited env reading u dbs startHash := fun traced => rfl
  simp only [htests] at hresult
  simp only [checksConnectable_def (show (validConnectableToChain env reading
    { u with traced := _ } dbs startHash checkValidity).2 = startHash from rfl), ← isVisited_iff]
  generalize startHash.slice 0 sizeSha256 = x at hresult ⊢
  by_cases hx : OnChain env dbs x
  · obtain ⟨h, hhas⟩ := hx
    have hon : ∀ h, ChainHas env dbs h x → ((isVisited env reading u dbs startHash = true ↔
        top.toNat < h.toNat + 6) ↔
          (isVisited env reading u dbs startHash = true ↔ Connectable env dbs top x)) :=
      fun h hhas => by rw [hchain.connectable_iff hhas]
    have hmeets : ¬ MeetsInvalid env dbs top x := fun hmeets => hmeets.offChain ⟨h, hhas⟩
    simp only [(hresult _).1 ⟨h, hhas⟩]
    constructor
    · intro hall
      refine ⟨fun hzero h hhas => (hon h hhas).mpr ?_, fun hoff => absurd ⟨h, hhas⟩ hoff⟩
      obtain ⟨hyes, hno⟩ := (hall 0).1 hzero
      by_cases hconn : Connectable env dbs top x
      · exact iff_of_true (by simpa using hyes hconn) hconn
      · exact iff_of_false (by simpa using hno hconn) hconn
    · rintro ⟨hzero, -⟩ traced
      refine ⟨fun hcheck => ?_, fun _ => iff_of_false ?_ hmeets⟩
      · have hvisited := (hon h hhas).mp (hzero hcheck h hhas)
        exact ⟨fun hconn => if_pos (hvisited.mpr hconn), fun hconn => if_neg (mt hvisited.mp hconn)⟩
      · split <;> norm_num
  · have hnone : ∀ h, ¬ ChainHas env dbs h x := fun h hhas => hx ⟨h, hhas⟩
    simp only [(hresult _).2 hx]
    constructor
    · intro hall
      refine ⟨fun _ h hhas => absurd hhas (hnone h), fun _ => ?_⟩
      have hstopped : ¬ isVisited env reading u dbs startHash = true := by
        intro hvisited
        simp only [if_pos hvisited] at hall
        by_cases hzero : checkValidity = 0
        · -- 7 is no answer at all
          obtain ⟨hyes, hno⟩ := (hall 7).1 hzero
          by_cases hconn : Connectable env dbs top x
          · exact absurd (hyes hconn) (by norm_num)
          · exact absurd (hno hconn) (by norm_num)
        · -- neither -1 nor 0 is right in both cases
          have hcheck := UInt8.pos_iff_ne_zero.mpr hzero
          exact absurd (((hall 0).2 hcheck).mpr (((hall (-1)).2 hcheck).mp rfl)) (by norm_num)
      obtain ⟨hzero, hcheck⟩ := hall 0
      rw [if_neg hstopped] at hzero hcheck
      refine ⟨hstopped, fun h hconn => ?_, fun h hmeets => ?_⟩
      · exact absurd ((hzero h).1 hconn) (by norm_num)
      · exact absurd ((hcheck h).mpr hmeets) (by norm_num)
    · rintro ⟨-, hoff⟩ traced
      obtain ⟨hstopped, hconn, hmeets⟩ := hoff hx
      rw [if_neg hstopped]
      exact ⟨fun hzero => ⟨fun h => absurd h (hconn hzero), fun _ => rfl⟩,
        fun hcheck => iff_of_false (by norm_num) (hmeets hcheck)⟩

/-! ## A chain of one block -/

theorem genesisNode_blockChain : BlockChain sampleEnv genesisNode 0 := by
  refine ⟨genesisNode_gapFree, ?_⟩
  intro h x r hhas hr
  obtain ⟨rfl, rfl⟩ := genesisNode_chainHas.mp hhas
  obtain rfl := Option.some_inj.mp ((AList.lookup_insert _).symm.trans hr)
  decide +kernel

/-- A hash that nothing is stored under is not connectable, and the answer is 0. -/
theorem unknown_hash_checked :
    BlockChain sampleEnv genesisNode 0 ∧
    ∀ traced, ChecksConnectable sampleEnv genesisNode 0 (fun _ => 0) 0
      (validConnectableToChain sampleEnv .notThere
        ⟨fun _ => 0, fun _ => 0, ⟨0, fun _ => 0⟩, fun _ => 0, traced⟩ genesisNode (fun _ => 0)
        0) := by
  have hnone : genesisNode.blocks.lookup (Mem.slice (fun _ => 0) 0 sizeSha256) = none := by
    decide
  have hoff : ¬ OnChain sampleEnv genesisNode (Mem.slice (fun _ => 0) 0 sizeSha256) := by
    rintro ⟨h, hhas⟩
    exact absurd (genesisNode_chainHas.mp hhas).2 (by decide)
  have hiff := checksConnectable_iff sampleEnv .notThere
    ⟨fun _ => 0, fun _ => 0, ⟨0, fun _ => 0⟩, fun _ => 0, 0⟩ genesisNode 0 genesisNode_blockChain
    (fun _ => 0) 0
  refine ⟨genesisNode_blockChain, hiff.mpr ⟨?_, fun _ => ⟨?_, ?_, ?_⟩⟩⟩
  · intro _ h hhas
    exact absurd ⟨h, hhas⟩ hoff
  · rintro ⟨-, hwindow⟩
    have hblock : (dataBlocksGet .passed genesisNode (fun _ => 0) fun _ => 0).2 = fun _ => 0 := by
      rcases dataBlocksGet_cases genesisNode (fun _ => 0) fun _ => 0 with ⟨r, hr, -⟩ | ⟨-, hget⟩
      · exact absurd (hnone.symm.trans hr) (by simp)
      · rw [hget]
    rw [hblock, show blockGetHeight sampleEnv.host (fun _ => 0) = 0 by decide,
      genesisNode_height] at hwindow
    exact absurd hwindow (by decide)
  · intro _ hconn
    cases hconn with
    | onChain hr => exact absurd (hnone.symm.trans hr.stored) (by simp)
    | step hr => exact absurd (hnone.symm.trans hr.stored) (by simp)
  · intro hcheck
    exact absurd hcheck (by decide)

/-- The only block of a chain of height 0 is not found to be on it: `0 - 6` is close to
2³² over `uint`. -/
theorem genesis_not_connectable :
    BlockChain sampleEnv genesisNode 0 ∧
    ¬ ChecksConnectable sampleEnv genesisNode 0 (Mem.ofBytes genesisHash) 0
      (validConnectableToChain sampleEnv .notThere
        ⟨fun _ => 0, fun _ => 0, ⟨0, fun _ => 0⟩, fun _ => 0, 0⟩ genesisNode
        (Mem.ofBytes genesisHash) 0) := by
  refine ⟨genesisNode_blockChain, ?_⟩
  intro h
  have hhash : (Mem.ofBytes genesisHash).slice 0 sizeSha256 = genesisHash :=
    slice_ofBytes (by decide)
  have hon : OnChain sampleEnv genesisNode genesisHash :=
    ⟨0, genesisNode_chainHas.mpr ⟨rfl, rfl⟩⟩
  obtain ⟨r, hr, -⟩ := genesisNode_blockChain.stored (genesisNode_chainHas.mpr ⟨rfl, rfl⟩)
  have hrecent : Recent sampleEnv 0 r := by
    show (0 : ℤ) - 6 < _
    omega
  have hone := h.connectable rfl (hhash.symm ▸ .onChain hr hrecent hon)
  exact absurd hone (by decide +kernel)

end Passed

end Freecoin
