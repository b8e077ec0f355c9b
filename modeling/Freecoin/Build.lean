import Freecoin.Data.Scan
import Freecoin.Data.View

/-!
# build.c: lists of ids

`build_block_list` reads the chain entries after a start block and copies each
of them over its own scratch buffer; `dest` is not written, and from the
second entry on the copy leaves the scratch buffer. It never asks whether the
start block is on the chain. `build_mempool_list` copies the entries
themselves instead of the hashes they point at, and has no `return`. The two
lists of missing ids do what their names say.
-/

namespace Freecoin

open Lib

/-! ## Blocks after a start block -/

/-- The memory that `build_block_list` is handed uninitialised. -/
structure BuildMem : Type where
  height : HeightMem
  blockBuffer : Mem
  hashBuffer : Mem

/-- What a call of `build_block_list` leaves: the result, `dest`, and the offset and
length of each `memcpy` into `hash_buffer`. -/
structure BlockList : Type where
  ret : UInt8
  dest : Mem
  copies : List (ℕ × ℕ)

/-- The bound of the loop that starts at `index`; `top` is the chain height plus
one. -/
def blockListMax (index top : UInt32) (reqBlocks : UInt8) : UInt32 :=
  let reqMax := index + reqBlocks.toUInt32
  let max := if 255 < top - index then index + 255 else top
  if reqMax < max then reqMax else max

variable {B : Bdb} (env : Env B)

/-- The loop, `n` passes from height `i` on: the final `count`, and the copies. -/
def blockListLoop (dbs : Dbs) : ℕ → UInt32 → ℕ → Mem → ℕ × List (ℕ × ℕ)
  | 0, _, count, _ => (count, [])
  | n + 1, i, count, hashBuffer =>
      let got := dataChainGet env dbs i hashBuffer
      if got.1 then
        -- `memcpy(&hash_buffer[count * SIZE_SHA256], hash_buffer, SIZE_SHA256)`
        let hashBuffer := got.2.write (count * sizeSha256) (got.2.slice 0 sizeSha256)
        let rest := blockListLoop dbs n (i + 1) (count + 1) hashBuffer
        (rest.1, (count * sizeSha256, sizeSha256) :: rest.2)
      else (count, [])

/-- `btoui(&block_buffer[POS_BLOCK_HEIGHT]) + 1`. -/
def blockListIndex (u : BuildMem) (dbs : Dbs) (startblock : Mem) : UInt32 :=
  btoui env.host ((dataBlocksGetHeader B dbs startblock u.blockBuffer).2.shift posBlockHeight) + 1

/-- `build_block_list(dbs, startblock, req_blocks, dest)`. -/
def buildBlockList (u : BuildMem) (dbs : Dbs) (startblock : Mem) (reqBlocks : UInt8)
    (dest : Mem) : BlockList :=
  if (dataBlocksGetHeader B dbs startblock u.blockBuffer).1 then
    let index := blockListIndex env u dbs startblock
    let max := blockListMax index (dataChainGetHeight env u.height dbs + 1) reqBlocks
    let list := blockListLoop env dbs (max.toNat - index.toNat) index 0 u.hashBuffer
    ⟨UInt8.ofNat list.1, dest, list.2⟩
  else ⟨0, dest, []⟩

/-- The chain has a stored block of the right height at each height up to `top`,
and nothing above. -/
structure GapFreeChain (dbs : Dbs) (top : UInt32) : Prop where
  upto : ∀ h ≤ top, ∃ x r, ChainHas env dbs h x ∧ dbs.blocks.lookup x = some r ∧
    sizeBlockHeader ≤ r.length ∧ recordHeight env r = h
  above : ∀ h, top < h → ∀ dest, (dataChainGet env dbs h dest).1 = false

/-- A `<getblocks>` is served as documented, whatever `dest` held: after a block of
the chain come the next `min(req, top - s)` hashes, written inside the
buffers; after any other block comes nothing. -/
structure ServesBlocks (u : BuildMem) (dbs : Dbs) (top : UInt32) (startblock : Mem)
    (reqBlocks : UInt8) : Prop where
  onChain : ∀ s, ChainHas env dbs s (startblock.slice 0 sizeSha256) → ∀ dest,
    let list := buildBlockList env u dbs startblock reqBlocks dest
    let n := min reqBlocks.toNat (top.toNat - s.toNat)
    list.ret.toNat = n ∧
    (∀ k < n, ∀ x, ChainHas env dbs (s + 1 + UInt32.ofNat k) x →
      list.dest.slice (sizeSha256 * k) sizeSha256 = x) ∧
    (∀ i, sizeSha256 * n ≤ i → list.dest i = dest i) ∧
    ∀ copy ∈ list.copies, copy.1 + copy.2 ≤ sizeSha256
  offChain : ¬ OnChain env dbs (startblock.slice 0 sizeSha256) → ∀ dest,
    (buildBlockList env u dbs startblock reqBlocks dest).ret = 0

/-- The loop makes no pass at all: nothing is asked for, the request wraps round, or
the bound is not above the start. -/
def NoPass (index top : UInt32) (reqBlocks : UInt8) : Prop :=
  reqBlocks = 0 ∨ 2 ^ 32 ≤ index.toNat + reqBlocks.toNat ∨ index = top ∨
    (top < index ∧ 2 ^ 32 ≤ index.toNat + 255)

/-! ### The bound of the loop -/

theorem blockListMax_toNat (index top : UInt32) (r : UInt8) :
    (blockListMax index top r).toNat =
      min ((index.toNat + r.toNat) % 2 ^ 32)
        (if 255 < (2 ^ 32 - index.toNat + top.toNat) % 2 ^ 32 then (index.toNat + 255) % 2 ^ 32
          else top.toNat) := by
  have hreq : (index + r.toUInt32).toNat = (index.toNat + r.toNat) % 2 ^ 32 := by
    rw [UInt32.toNat_add, UInt8.toNat_toUInt32]
  have hcap : (index + 255).toNat = (index.toNat + 255) % 2 ^ 32 := UInt32.toNat_add _ _
  have hroom : 255 < top - index ↔ 255 < (2 ^ 32 - index.toNat + top.toNat) % 2 ^ 32 := by
    rw [UInt32.lt_iff_toNat_lt, UInt32.toNat_sub]
    rfl
  have hbound : (if 255 < top - index then index + 255 else top).toNat =
      if 255 < (2 ^ 32 - index.toNat + top.toNat) % 2 ^ 32 then (index.toNat + 255) % 2 ^ 32
        else top.toNat := by
    by_cases h : 255 < top - index
    · rw [if_pos h, if_pos (hroom.mp h), hcap]
    · rw [if_neg h, if_neg (mt hroom.mpr h)]
  rw [← hreq, ← hbound]
  show (if index + r.toUInt32 < if 255 < top - index then index + 255 else top then
    index + r.toUInt32 else if 255 < top - index then index + 255 else top).toNat = _
  generalize (if 255 < top - index then index + 255 else top) = max
  by_cases hlt : index + r.toUInt32 < max
  · rw [if_pos hlt, Nat.min_eq_left (Nat.le_of_lt (UInt32.lt_iff_toNat_lt.mp hlt))]
  · rw [if_neg hlt, Nat.min_eq_right (Nat.not_lt.mp (mt UInt32.lt_iff_toNat_lt.mpr hlt))]

/-- The loop makes at most 255 passes. -/
theorem blockListMax_passes (index top : UInt32) (r : UInt8) :
    (blockListMax index top r).toNat - index.toNat ≤ 255 := by
  have hr := r.toNat_lt
  have hreq : (index.toNat + r.toNat) % 2 ^ 32 ≤ index.toNat + r.toNat := Nat.mod_le _ _
  rw [blockListMax_toNat]
  omega

theorem blockListMax_le_iff (index top : UInt32) (r : UInt8) :
    (blockListMax index top r).toNat ≤ index.toNat ↔ NoPass index top r := by
  have hr := r.toNat_lt
  have hi := index.toNat_lt
  have ht := top.toNat_lt
  have hzero : r = 0 ↔ r.toNat = 0 := UInt8.toNat_inj.symm
  rw [blockListMax_toNat, NoPass, hzero, ← UInt32.toNat_inj, UInt32.lt_iff_toNat_lt]
  split <;> omega

/-! ### What the loop collects -/

theorem blockListLoop_count (dbs : Dbs) :
    ∀ (n : ℕ) (i : UInt32) (count : ℕ) (buffer : Mem),
      count ≤ (blockListLoop env dbs n i count buffer).1 ∧
        (blockListLoop env dbs n i count buffer).1 ≤ count + n := by
  intro n
  induction n with
  | zero =>
      intro i count buffer
      exact ⟨Nat.le_refl _, Nat.le_refl _⟩
  | succ n ih =>
      intro i count buffer
      rw [blockListLoop]
      dsimp only
      split
      · obtain ⟨hlo, hhi⟩ := ih (i + 1) (count + 1) _
        exact ⟨Nat.le_of_succ_le hlo, by omega⟩
      · exact ⟨Nat.le_refl _, Nat.le_add_right _ _⟩

/-- Without a first entry there is neither a result nor a copy. -/
theorem blockListLoop_nothing {dbs : Dbs} {n : ℕ} {i : UInt32} {buffer : Mem}
    (h : n = 0 ∨ (dataChainGet env dbs i buffer).1 = false) :
    blockListLoop env dbs n i 0 buffer = (0, []) := by
  cases n with
  | zero => rfl
  | succ n =>
      have hmiss := h.resolve_left (Nat.succ_ne_zero n)
      rw [blockListLoop, hmiss]
      rfl

theorem blockListLoop_something {dbs : Dbs} {n : ℕ} {i : UInt32} {buffer : Mem} (hn : n ≠ 0)
    (h : (dataChainGet env dbs i buffer).1 = true) :
    0 < (blockListLoop env dbs n i 0 buffer).1 := by
  obtain ⟨m, rfl⟩ := Nat.exists_eq_succ_of_ne_zero hn
  rw [blockListLoop, h]
  exact (blockListLoop_count env dbs m (i + 1) 1 _).1

theorem GapFreeChain.get_iff {env : Env B} {dbs : Dbs} {top : UInt32}
    (hchain : GapFreeChain env dbs top) (h : UInt32) (dest : Mem) :
    (dataChainGet env dbs h dest).1 = true ↔ h ≤ top := by
  constructor
  · intro hget
    by_contra hgt
    have hmiss := hchain.above h (UInt32.not_le.mp hgt) dest
    exact Bool.noConfusion (hget.symm.trans hmiss)
  · intro hle
    obtain ⟨x, _, hx, _⟩ := hchain.upto h hle
    exact (hx dest).1

/-- Nothing is found exactly when the loop makes no pass or starts above the chain. -/
theorem buildBlockList_ret_iff {env : Env B} {u : BuildMem} {dbs : Dbs} {top : UInt32}
    (hchain : GapFreeChain env dbs top) (start : Mem) (r : UInt8) (dest : Mem)
    (hstored : (dataBlocksGetHeader B dbs start u.blockBuffer).1 = true) :
    (buildBlockList env u dbs start r dest).ret = 0 ↔
      NoPass (blockListIndex env u dbs start) (dataChainGetHeight env u.height dbs + 1) r ∨
      top < blockListIndex env u dbs start := by
  rw [buildBlockList, if_pos hstored]
  dsimp only
  generalize blockListIndex env u dbs start = index
  rw [← blockListMax_le_iff]
  have hpasses := blockListMax_passes index (dataChainGetHeight env u.height dbs + 1) r
  generalize (blockListMax index (dataChainGetHeight env u.height dbs + 1) r).toNat = max
    at hpasses ⊢
  constructor
  · intro hret
    by_contra hnone
    rw [not_or, Nat.not_le, UInt32.not_lt] at hnone
    have hsome := blockListLoop_something env (n := max - index.toNat) (by omega)
      ((hchain.get_iff index u.hashBuffer).mpr hnone.2)
    have hcount := (blockListLoop_count env dbs (max - index.toNat) index 0 u.hashBuffer).2
    -- at most 255 entries, so the `uchar` result is the count
    have hnat := congrArg UInt8.toNat hret
    rw [UInt8.toNat_ofNat', Nat.mod_eq_of_lt (by omega)] at hnat
    exact absurd hnat (Nat.ne_of_gt hsome)
  · intro hnone
    have hmiss : max - index.toNat = 0 ∨ (dataChainGet env dbs index u.hashBuffer).1 = false := by
      rcases hnone with hle | hgt
      · exact .inl (Nat.sub_eq_zero_of_le hle)
      · exact .inr (hchain.above index hgt _)
    rw [blockListLoop_nothing env hmiss]
    rfl

/-- An empty list comes without any copy. -/
theorem buildBlockList_copies {env : Env B} {u : BuildMem} {dbs : Dbs} {top : UInt32}
    (hchain : GapFreeChain env dbs top) {start : Mem} {r : UInt8} {dest : Mem}
    (h : NoPass (blockListIndex env u dbs start) (dataChainGetHeight env u.height dbs + 1) r ∨
      top < blockListIndex env u dbs start) :
    (buildBlockList env u dbs start r dest).copies = [] := by
  unfold buildBlockList
  split
  · have hmiss : (blockListMax (blockListIndex env u dbs start)
        (dataChainGetHeight env u.height dbs + 1) r).toNat -
          (blockListIndex env u dbs start).toNat = 0 ∨
        (dataChainGet env dbs (blockListIndex env u dbs start) u.hashBuffer).1 = false := by
      rcases h with hpass | hgt
      · exact .inl (Nat.sub_eq_zero_of_le ((blockListMax_le_iff _ _ _).mpr hpass))
      · exact .inr (hchain.above _ hgt _)
    dsimp only
    rw [blockListLoop_nothing env hmiss]
  · rfl

/-- `dest` is never written. -/
theorem buildBlockList_dest (env : Env B) (u : BuildMem) (dbs : Dbs) (start : Mem) (r : UInt8)
    (dest : Mem) : (buildBlockList env u dbs start r dest).dest = dest := by
  unfold buildBlockList
  split <;> rfl

section Passed

variable {env : Env .passed} {u : BuildMem} {dbs : Dbs} {top : UInt32}

/-- A block of the chain is stored, and its height is where it stands. -/
theorem GapFreeChain.stored (hchain : GapFreeChain env dbs top) {s : UInt32} {x : Bytes}
    (hx : ChainHas env dbs s x) : s ≤ top ∧ ∃ r, dbs.blocks.lookup x = some r := by
  have hle : s ≤ top := (hchain.get_iff s fun _ => 0).mp (hx fun _ => 0).1
  obtain ⟨y, r, hy, hr, _⟩ := hchain.upto s hle
  rw [hx.unique hy]
  exact ⟨hle, r, hr⟩

/-- **Serving `<getblocks>`.** On a gap-free chain the request is served as
documented exactly when the start block is not stored, or the loop finds
nothing and there is nothing to find. -/
theorem buildBlockList_serves_iff (env : Env .passed) (u : BuildMem) (dbs : Dbs) (top : UInt32)
    (hchain : GapFreeChain env dbs top) (start : Mem) (r : UInt8) :
    ServesBlocks env u dbs top start r ↔
      ((dbs.blocks.lookup (start.slice 0 sizeSha256)).isSome = true →
        (NoPass (blockListIndex env u dbs start) (dataChainGetHeight env u.height dbs + 1) r ∨
          top < blockListIndex env u dbs start) ∧
        ∀ s, ChainHas env dbs s (start.slice 0 sizeSha256) → r = 0 ∨ s = top) := by
  have hheader : (dataBlocksGetHeader .passed dbs start u.blockBuffer).1 =
      (dbs.blocks.lookup (start.slice 0 sizeSha256)).isSome := by
    rcases dataBlocksGetHeader_cases dbs start u.blockBuffer with ⟨rec, hrec, hget⟩ | ⟨hrec, hget⟩
    · rw [hget, sizeSha256, hrec]; rfl
    · rw [hget, sizeSha256, hrec]; rfl
  rw [← hheader]
  constructor
  · intro hserves hstored
    by_cases hon : OnChain env dbs (start.slice 0 sizeSha256)
    · -- `dest` keeps what it held, so nothing can have been wanted
      have hnothing : ∀ s, ChainHas env dbs s (start.slice 0 sizeSha256) →
          min r.toNat (top.toNat - s.toNat) = 0 := by
        intro s hs
        by_contra hne
        have hlt : s.toNat < top.toNat := by omega
        have hnext : (s + 1 + UInt32.ofNat 0).toNat = s.toNat + 1 := by
          rw [show UInt32.ofNat 0 = 0 from rfl, UInt32.add_zero, UInt32.toNat_add,
            show (1 : UInt32).toNat = 1 from rfl, Nat.mod_eq_of_lt]
          have := top.toNat_lt
          omega
        obtain ⟨x, _, hx, _⟩ := hchain.upto (s + 1 + UInt32.ofNat 0)
          (UInt32.le_iff_toNat_le.mpr (by omega))
        have hshown : ∀ dest : Mem, dest.slice 0 sizeSha256 = x := by
          intro dest
          have hdest := (hserves.onChain s hs dest).2.1 0 (Nat.pos_of_ne_zero hne) x hx
          rwa [buildBlockList_dest] at hdest
        exact absurd ((hshown fun _ => 0).trans (hshown fun _ => 1).symm) (by decide)
      obtain ⟨s, hs⟩ := hon
      have hret := (hserves.onChain s hs fun _ => 0).1
      rw [hnothing s hs] at hret
      refine ⟨(buildBlockList_ret_iff hchain start r _ hstored).mp (UInt8.toNat_inj.mp hret), ?_⟩
      intro s' hs'
      have hzero := hnothing s' hs'
      have hle := UInt32.le_iff_toNat_le.mp (hchain.stored hs').1
      rcases Nat.min_eq_zero_iff.mp hzero with hr | htop
      · exact .inl (UInt8.toNat_inj.mp hr)
      · exact .inr (UInt32.toNat_inj.mp (by omega))
    · exact ⟨(buildBlockList_ret_iff hchain start r _ hstored).mp (hserves.offChain hon fun _ => 0),
        fun s hs => absurd ⟨s, hs⟩ hon⟩
  · intro hcond
    refine ⟨?_, ?_⟩
    · intro s hs dest
      obtain ⟨hle, rec, hrec⟩ := hchain.stored hs
      obtain ⟨hnone, hlast⟩ := hcond (by rw [hheader, hrec]; rfl)
      have hn : min r.toNat (top.toNat - s.toNat) = 0 := by
        rcases hlast s hs with rfl | rfl
        · exact Nat.zero_min _
        · rw [Nat.sub_self, Nat.min_zero]
      have hret := (buildBlockList_ret_iff hchain start r dest
        (by rw [hheader, hrec]; rfl)).mpr hnone
      dsimp only
      rw [hn, hret, buildBlockList_copies hchain hnone, buildBlockList_dest]
      exact ⟨rfl, fun k hk => absurd hk (Nat.not_lt_zero k), fun i _ => rfl,
        fun copy hcopy => absurd hcopy List.not_mem_nil⟩
    · intro _ dest
      by_cases hstored : (dataBlocksGetHeader .passed dbs start u.blockBuffer).1 = true
      · exact (buildBlockList_ret_iff hchain start r dest hstored).mpr (hcond hstored).1
      · rw [buildBlockList, if_neg hstored]

theorem dataChainGet_absent {h : UInt32} (hnone : dbs.chain.lookup (hostBytes32 env.host h) = none)
    (dest : Mem) : (dataChainGet env dbs h dest).1 = false := by
  by_contra hget
  obtain ⟨x, hx, _⟩ := dataChainGet_success env (Bool.not_eq_false _ ▸ hget)
  rw [hnone] at hx
  cases hx

theorem genesisNode_gapFree : GapFreeChain sampleEnv genesisNode 0 := by
  refine ⟨?_, ?_⟩
  · intro h hle
    obtain rfl : h = 0 := UInt32.le_zero_iff.mp hle
    exact ⟨genesisHash, blockRecord sampleEnv 0 genesis, genesisNode_chainHas.mpr ⟨rfl, rfl⟩,
      AList.lookup_insert _, by decide +kernel, by decide +kernel⟩
  · intro h hgt
    apply dataChainGet_absent
    have hne : hostBytes32 .little h ≠ hostBytes32 .little 0 := fun heq =>
      UInt32.lt_irrefl _ (hostBytes32_injective _ heq ▸ hgt)
    show genesisNode.chain.lookup (hostBytes32 .little h) = none
    rw [genesisNode, AList.lookup_insert_ne hne]
    rfl

/-- The last block of the chain has no blocks after it, and none are returned. -/
theorem genesis_served :
    GapFreeChain sampleEnv genesisNode 0 ∧
    ServesBlocks sampleEnv ⟨⟨0, fun _ => 0⟩, fun _ => 0, fun _ => 0⟩ genesisNode 0
      (Mem.ofBytes genesisHash) 5 := by
  refine ⟨genesisNode_gapFree,
    (buildBlockList_serves_iff _ _ _ _ genesisNode_gapFree _ _).mpr fun _ => ⟨.inr ?_, ?_⟩⟩
  · decide +kernel
  · intro s hs
    exact .inr (genesisNode_chainHas.mp hs).1

/-- The chain is `genesis` and its child. -/
def grownNode : Dbs :=
  { forkNode with chain := genesisNode.chain.insert (hostBytes32 .little 1) childHash }

theorem grownNode_chain (h : UInt32) :
    grownNode.chain.lookup (hostBytes32 .little h) =
      if h = 1 then some childHash else if h = 0 then some genesisHash else none := by
  have hne : ∀ k, h ≠ k → hostBytes32 .little h ≠ hostBytes32 .little k := fun k hk heq =>
    hk (hostBytes32_injective _ heq)
  show (genesisNode.chain.insert (hostBytes32 .little 1) childHash).lookup
    (hostBytes32 .little h) = _
  by_cases h1 : h = 1
  · subst h1
    exact AList.lookup_insert _
  · rw [AList.lookup_insert_ne (hne 1 h1), if_neg h1]
    by_cases h0 : h = 0
    · subst h0
      exact AList.lookup_insert _
    · rw [genesisNode, AList.lookup_insert_ne (hne 0 h0), if_neg h0]
      rfl

theorem grownNode_gapFree : GapFreeChain sampleEnv grownNode 1 := by
  refine ⟨?_, ?_⟩
  · intro h hle
    have hcases : h = 0 ∨ h = 1 := by
      have := UInt32.le_iff_toNat_le.mp hle
      have hone : (1 : UInt32).toNat = 1 := rfl
      rcases Nat.eq_zero_or_pos h.toNat with hz | hz
      · exact .inl (UInt32.toNat_inj.mp hz)
      · exact .inr (UInt32.toNat_inj.mp (by omega))
    rcases hcases with rfl | rfl
    · exact ⟨genesisHash, blockRecord sampleEnv 0 genesis,
        (chainHas_iff sampleEnv).mpr ⟨grownNode_chain 0, by decide⟩, by decide +kernel,
        by decide +kernel, by decide +kernel⟩
    · exact ⟨childHash, childRecord, (chainHas_iff sampleEnv).mpr ⟨grownNode_chain 1, by decide⟩,
        AList.lookup_insert _, by decide, by decide⟩
  · intro h hgt
    apply dataChainGet_absent
    have h1 : h ≠ 1 := fun heq => UInt32.lt_irrefl _ (heq ▸ hgt)
    have h0 : h ≠ 0 := fun heq => absurd (heq ▸ hgt) (by decide)
    exact (grownNode_chain h).trans (by rw [if_neg h1, if_neg h0])

/-- Asked for one block after `genesis`, the node leaves zeros where the hash of the
child should be. -/
theorem child_not_served :
    GapFreeChain sampleEnv grownNode 1 ∧
    ¬ ServesBlocks sampleEnv ⟨⟨0, fun _ => 0⟩, fun _ => 0, fun _ => 0⟩ grownNode 1
      (Mem.ofBytes genesisHash) 1 := by
  refine ⟨grownNode_gapFree, ?_⟩
  intro hserves
  have hgenesis :
      ChainHas sampleEnv grownNode 0 ((Mem.ofBytes genesisHash).slice 0 sizeSha256) := by
    rw [slice_ofBytes (by decide)]
    exact (chainHas_iff sampleEnv).mpr ⟨grownNode_chain 0, by decide⟩
  have hchild : ChainHas sampleEnv grownNode (0 + 1 + UInt32.ofNat 0) childHash :=
    (chainHas_iff sampleEnv).mpr ⟨grownNode_chain 1, by decide⟩
  have hdest := (hserves.onChain 0 hgenesis fun _ => 0).2.1 0 (by decide) childHash hchild
  rw [buildBlockList_dest] at hdest
  exact absurd hdest (by decide)

end Passed

/-! ## The mempool -/

/-- `memcpy(&dest[i * SIZE_SHA256], dbs->mempool->txs[i], SIZE_SHA256)`: 32 bytes from
the entry itself. -/
def copyEntry (mempool : Mempool) (dest : Mem) (i : ℕ) : Except Fault Mem :=
  match mempool.txs i with
  | none => .error .badPointer
  | some tx => .ok (dest.write (i * sizeSha256) ((Mem.ofBytes tx.raw).slice 0 sizeSha256))

/-- `build_mempool_list(dbs, dest)`. It ends without a `return`: the caller finds what
happens to be in the place of the result, `ret`. -/
def buildMempoolList (ret : UInt8) (mempool : Mempool) (dest : Mem) :
    Except Fault (UInt8 × Mem) := do
  let dest ← (List.range mempool.count).foldlM (copyEntry mempool) dest
  return (ret, dest)

/-- The 32 bytes that `build_mempool_list` takes from an entry. -/
def MTx.shown (tx : MTx) : Bytes := (Mem.ofBytes tx.raw).slice 0 sizeSha256

theorem foldlM_copyEntry {p : Mempool} {l : List MTx} (hp : Slots p l) (dest : Mem) :
    ∀ n ≤ l.length, ∃ dest', (List.range n).foldlM (copyEntry p) dest = .ok dest' ∧
      ∀ i (hi : i < l.length), i < n → dest'.slice (sizeSha256 * i) sizeSha256 = l[i].shown := by
  intro n
  induction n with
  | zero => intro _; exact ⟨dest, rfl, fun i _ hi => absurd hi (Nat.not_lt_zero i)⟩
  | succ n ih =>
      intro hn
      obtain ⟨mid, hmid, hslots⟩ := ih (Nat.le_of_succ_le hn)
      have hentry : copyEntry p mid n = .ok (mid.write (n * sizeSha256) l[n].shown) := by
        rw [copyEntry, hp.slot n hn]
        rfl
      refine ⟨mid.write (n * sizeSha256) l[n].shown, ?_, ?_⟩
      · rw [List.range_succ, List.foldlM_append, hmid]
        show (copyEntry p mid n >>= pure) = _
        rw [hentry]
        rfl
      · intro i hi hlt
        rcases Nat.lt_succ_iff_lt_or_eq.mp hlt with hlt | rfl
        · rw [Mem.slice_write_disjoint (.inl (by simp only [sizeSha256]; omega))]
          exact hslots i hi hlt
        · rw [Nat.mul_comm]
          exact Mem.slice_write_of_length (Mem.slice_length ..)

/-- A well-formed mempool is copied out entry by entry. -/
theorem buildMempoolList_slots {p : Mempool} {l : List MTx} (hp : Slots p l) (ret : UInt8)
    (dest : Mem) : ∃ dest', buildMempoolList ret p dest = .ok (ret, dest') ∧
      ∀ i (hi : i < l.length), dest'.slice (sizeSha256 * i) sizeSha256 = l[i].shown := by
  obtain ⟨dest', hrun, hslots⟩ := foldlM_copyEntry hp dest l.length (Nat.le_refl _)
  refine ⟨dest', ?_, fun i hi => hslots i hi hi⟩
  rw [buildMempoolList, hp.count, hrun]
  rfl

/-! ## Missing ids -/

/-- The common loop of `build_missing_blocks_list` and `build_missing_tx_list` over the
ids at the given indices: `missing`, and `dest`. -/
def missingLoop (found : Mem → Bool) (list : Mem) : List ℕ → ℕ → Mem → ℕ × Mem
  | [], missing, dest => (missing, dest)
  | i :: rest, missing, dest =>
      let id := list.shift (i * sizeSha256)
      let next := if found id then (missing, dest)
        else (missing + 1, dest.write (sizeSha256 * missing) (id.slice 0 sizeSha256))
      if next.1 = 255 then next else missingLoop found list rest next.1 next.2

/-- `build_missing_blocks_list(dbs, list, count, dest)`. -/
def buildMissingBlocksList (B : Bdb) (dbs : Dbs) (list : Mem) (count : UInt8) (dest : Mem) :
    UInt8 × Mem :=
  let out := missingLoop (dataBlocksExists B dbs) list (List.range count.toNat) 0 dest
  (UInt8.ofNat out.1, out.2)

/-- `build_missing_tx_list(dbs, list, count, dest)`. -/
def buildMissingTxList (B : Bdb) (dbs : Dbs) (list : Mem) (count : UInt8) (dest : Mem) :
    UInt8 × Mem :=
  let out := missingLoop (fun id => dataTxsExists B dbs (id.slice 0 sizeSha256)) list
    (List.range count.toNat) 0 dest
  (UInt8.ofNat out.1, out.2)

/-- The loop looks at the ids it is asked about. -/
theorem missingLoop_congr {found : Mem → Bool} {list list' : Mem}
    (hfound : ∀ id id' : Mem, id.slice 0 sizeSha256 = id'.slice 0 sizeSha256 →
      found id = found id') :
    ∀ (is : List ℕ) (missing : ℕ) (dest : Mem),
      (∀ i ∈ is, (list.shift (i * sizeSha256)).slice 0 sizeSha256 =
        (list'.shift (i * sizeSha256)).slice 0 sizeSha256) →
      missingLoop found list is missing dest = missingLoop found list' is missing dest := by
  intro is
  induction is with
  | nil => intro missing dest _; rfl
  | cons i rest ih =>
      intro missing dest h
      obtain ⟨hid, hrest⟩ := List.forall_mem_cons.mp h
      have hlater := fun missing dest => ih missing dest hrest
      rw [missingLoop, missingLoop, hfound _ _ hid, hid]
      simp only [hlater]

end Freecoin
