import Freecoin.Network.Handle

/-!
# The chain invariant over runs

Up to the chain height, every height reads as the hash of a stored, accepted
block of that height, and each block names the one below it as its parent.

The invariant holds up to whatever `data_chain_get_height` returns, and that
starts from an uninitialised `highest`: a run is a sequence of block messages
together with the memory that the next call finds. Since no message changes
what `data_chain_get` returns, three things are left that can break the
invariant, and `KeepsChain` excludes them: a stored chain block replaced by
one with another header and the same hash, a record written by
`data_chain_safe_set`, and a height read off from memory.
-/

namespace Freecoin

open Lib Relation

variable (env : Env .passed)

/-- The record of a block that `valid_block` accepted. -/
def Accepted (r : Bytes) : Prop :=
  ∃ addr block, env.validBlock block = true ∧ r = blockRecord env addr block

/-- The databases, and the memory that the next call of `data_chain_get_height` finds. -/
abbrev Observed : Type := HeightMem × Dbs

/-- The height of the chain as the program would read it now. -/
def Observed.height (s : Observed) : UInt32 := dataChainGetHeight env s.1 s.2

/-- **The chain invariant.** -/
structure ChainInv (s : Observed) : Prop where
  block : ∀ h ≤ s.height env, ∃ x r, ChainHas env s.2 h x ∧ s.2.blocks.lookup x = some r ∧
    recordHash env r = x ∧ recordHeight env r = h ∧ Accepted env r
  linked : ∀ h < s.height env, ∀ x y r, ChainHas env s.2 h x → ChainHas env s.2 (h + 1) y →
    s.2.blocks.lookup y = some r → recordPrevHash r = x

/-- A `<block>` message, the memory its handling finds, and the memory that the
next call of `data_chain_get_height` finds after it. -/
structure BlockInput : Type where
  mem : BlockMem
  msg : Mem
  next : HeightMem

def BlockInput.block (m : BlockInput) : Mem := m.msg.shift 4

/-- Handling the message to its end. -/
def Receives (s : Observed) (m : BlockInput) (s' : Observed) : Prop :=
  Handles env s.2 (.block m.mem m.msg) s'.2 ∧ s'.1 = m.next

/-- The messages that keep the invariant. -/
structure KeepsChain (s : Observed) (m : BlockInput) : Prop where
  /-- An accepted block with the hash of a stored chain block has its header. -/
  same_header : env.validBlock m.block = true →
    OnChain env s.2 (blockComputeHash env.digest m.block) →
    ∀ r, s.2.blocks.lookup (blockComputeHash env.digest m.block) = some r →
      r.take 83 = m.block.slice 0 83
  /-- A block that is to extend the chain does not start with a stored hash. -/
  not_key : .chain ∈ receivedFilings env m.mem s.2 m.block →
    (storeBlock env m.mem s.2 m.block).blocks.lookup (m.block.slice 0 32) = none
  /-- Neither does a block that a reorganisation comes across. -/
  buffer_not_key : NoReorg env m.mem.scan (fileBlock env m.mem s.2 m.block) ∨
    ∀ b, BlockBuffer m.mem.scan.revert (storeBlock env m.mem s.2 m.block).blocks b →
      (storeBlock env m.mem s.2 m.block).blocks.lookup (b.slice 0 32) = none
  /-- The memory found next does not raise the height. -/
  height_le : dataChainGetHeight env m.next s.2 ≤ s.height env

variable {env}

/-! ## The chain database -/

/-- A block that does not start with a stored hash sets nothing. -/
theorem dataChainSafeSet_of_not_key {header : Mem} {dbs : Dbs} {block : Mem}
    (h : dbs.blocks.lookup (block.slice 0 32) = none) :
    dataChainSafeSet env header dbs block = dbs := by
  rcases dataChainSafeSet_cases env header dbs block with ⟨r, v, hr, _⟩ | ⟨_, hset⟩
  · rw [h] at hr
    cases hr
  · exact hset

theorem KeepsChain.file_chain {s : Observed} {m : BlockInput} (hm : KeepsChain env s m) :
    (fileBlock env m.mem s.2 m.block).chain = s.2.chain := by
  rw [← storeBlock_chain env m.mem s.2 m.block]
  rcases fileBlock_cases env m.mem s.2 m.block with ⟨_, h⟩ | ⟨hfile, h⟩ | ⟨_, h⟩
  · rw [h]; rfl
  · rw [h, dataChainSafeSet_of_not_key (hm.not_key (by rw [hfile]; exact List.mem_cons_self ..))]
  · rw [h]

/-- The chain database is left alone altogether. -/
theorem KeepsChain.chain_eq {s s' : Observed} {m : BlockInput} (hm : KeepsChain env s m)
    (hstep : Receives env s m s') : s'.2.chain = s.2.chain := by
  refine hstep.1.block_rule (P := fun t => t.chain = s.2.chain) hm.file_chain ?_
  intro hstarts t t' hblocks hedit ht
  cases hedit with
  | chainSafeSet k hbuf =>
      have hnone := hm.buffer_not_key.resolve_left hstarts _ hbuf
      rw [dataChainSafeSet_of_not_key (hblocks ▸ hnone)]
      exact ht
  | _ => exact ht

theorem KeepsChain.height_mono {s s' : Observed} {m : BlockInput} (hm : KeepsChain env s m)
    (hstep : Receives env s m s') : s'.height env ≤ s.height env := by
  have hheight : s'.height env = dataChainGetHeight env m.next s.2 := by
    rw [Observed.height, hstep.2, dataChainGetHeight, dataChainGetHeight, hm.chain_eq hstep]
  rw [hheight]
  exact hm.height_le

/-! ## The stored blocks -/

theorem header_ofBytes {r : Bytes} (h : 83 ≤ r.length) :
    (Mem.ofBytes r).slice 0 83 = r.take 83 := by
  have hslice := slice_ofBytes (rfl : r.length = r.length)
  rw [← Mem.slice_take _ _ _ _ h, hslice]

theorem header_blockRecord (env : Env .passed) (addr : UInt8) (block : Mem) :
    (Mem.ofBytes (blockRecord env addr block)).slice 0 83 = block.slice 0 83 :=
  header_ofBytes_slice block (header_le_blockComputeSize env.host addr block)

/-- A stored chain block is still there after the message, as it was or with
another body. -/
theorem KeepsChain.stored {s s' : Observed} {m : BlockInput} (hm : KeepsChain env s m)
    (hstep : Receives env s m s') {x r : Bytes} (hx : OnChain env s.2 x)
    (hr : s.2.blocks.lookup x = some r) :
    ∃ r', s'.2.blocks.lookup x = some r' ∧
      (Mem.ofBytes r').slice 0 83 = (Mem.ofBytes r).slice 0 83 ∧
      (Accepted env r → Accepted env r') := by
  have hblocks : s'.2.blocks = (storeBlock env m.mem s.2 m.block).blocks := hstep.1.blocks_eq
  rw [hblocks]
  cases hvalid : env.validBlock m.block with
  | false =>
      rw [storeBlock_of_invalid _ _ hvalid]
      exact ⟨r, hr, rfl, id⟩
  | true =>
      rw [storeBlock_of_valid _ _ hvalid]
      by_cases heq : x = blockComputeHash env.digest m.block
      · subst heq
        have hheader := hm.same_header hvalid hx r hr
        have hlen : 83 ≤ r.length := by
          have := congrArg List.length hheader
          simp only [List.length_take, Mem.slice_length] at this
          omega
        refine ⟨_, AList.lookup_insert _, ?_, fun _ => ⟨_, _, hvalid, rfl⟩⟩
        rw [header_blockRecord, header_ofBytes hlen, hheader]
      · exact ⟨r, by rw [AList.lookup_insert_ne heq]; exact hr, rfl, id⟩

/-- **One message.** -/
theorem ChainInv.step {s s' : Observed} {m : BlockInput} (h : ChainInv env s)
    (hm : KeepsChain env s m) (hstep : Receives env s m s') : ChainInv env s' := by
  have hget := hstep.1.chainGet_eq
  have hle := hm.height_mono hstep
  constructor
  · intro height hheight
    obtain ⟨x, r, hx, hr, hhash, hrec, hacc⟩ := h.block height (UInt32.le_trans hheight hle)
    obtain ⟨r', hr', hheader, hacc'⟩ := hm.stored hstep ⟨height, hx⟩ hr
    refine ⟨x, r', (ChainHas.congr hget).mpr hx, hr', ?_, ?_, hacc' hacc⟩
    · exact (blockComputeHash_of_header_eq hheader env.digest).trans hhash
    · exact (blockGetHeight_of_header_eq hheader env.host).trans hrec
  · intro height hheight x y r' hx hy hr'
    rw [ChainHas.congr hget] at hx hy
    have hlt : height < s.height env := UInt32.lt_of_lt_of_le hheight hle
    -- the block above `height` was stored before the message, with the same header
    have hsucc : height + 1 ≤ s.height env := by
      rw [UInt32.lt_iff_toNat_lt] at hlt
      have hmax := (s.height env).toNat_lt
      rw [UInt32.le_iff_toNat_le, UInt32.toNat_add, show (1 : UInt32).toNat = 1 from rfl,
        Nat.mod_eq_of_lt (by omega)]
      exact hlt
    obtain ⟨y', r, hy', hr, -⟩ := h.block (height + 1) hsucc
    obtain rfl := hy'.unique hy
    obtain ⟨r'', hr'', hheader, -⟩ := hm.stored hstep ⟨_, hy'⟩ hr
    obtain rfl := Option.some_inj.mp (hr''.symm.trans hr')
    exact (blockGetPrevHash_of_header_eq hheader).trans (h.linked height hlt x y' r hx hy' hr)

/-- **The chain invariant over runs.** -/
theorem chainInv_of_run (env : Env .passed) (s s' : Observed) (h : ChainInv env s)
    (hrun : ReflTransGen (Guarded (Receives env) (KeepsChain env)) s s') : ChainInv env s' := by
  refine run_invariant ?_ hrun h
  rintro t t' ⟨m, hm, hstep⟩ ht
  exact ht.step hm hstep

/-! ## A chain of one block -/

theorem genesisNode_chainInv : ChainInv sampleEnv (⟨0, fun _ => 0⟩, genesisNode) := by
  have hheight : Observed.height sampleEnv (⟨0, fun _ => 0⟩, genesisNode) = 0 := genesisNode_height
  have hheader := header_blockRecord sampleEnv 0 genesis
  constructor
  · intro h hh
    rw [hheight, UInt32.le_zero_iff] at hh
    subst hh
    refine ⟨genesisHash, _, genesisNode_chainHas.mpr ⟨rfl, rfl⟩, AList.lookup_insert _, ?_, ?_,
      0, genesis, rfl, rfl⟩
    · exact (blockComputeHash_of_header_eq hheader _).trans genesisHash_eq
    · exact (blockGetHeight_of_header_eq hheader _).trans (by decide)
  · intro h hh
    rw [hheight] at hh
    exact absurd hh UInt32.not_lt_zero

theorem sampleEnv_receives (u u' : HeightMem) (mem : BlockMem) (dbs : Dbs) (block : Mem) :
    Receives sampleEnv (u, dbs) ⟨mem, blockMsg block, u'⟩ (u', fileBlock sampleEnv mem dbs block) :=
  ⟨sampleEnv_handles mem dbs block, rfl⟩

/-- The same block once more, with zero found in memory. -/
theorem genesis_keepsChain :
    KeepsChain sampleEnv (⟨0, fun _ => 0⟩, genesisNode)
      ⟨.zero, blockMsg genesis, ⟨0, fun _ => 0⟩⟩ := by
  have hblock : (BlockInput.mk .zero (blockMsg genesis) ⟨0, fun _ => 0⟩).block = genesis :=
    blockMsg_shift genesis
  refine ⟨?_, ?_, .inl (sampleEnv_noReorg _ _), UInt32.le_refl _⟩
  · rw [hblock]
    intro _ _ r hr
    dsimp only [sampleEnv] at hr
    rw [genesisHash_eq] at hr
    have hr' : genesisNode.blocks.lookup genesisHash = some (blockRecord sampleEnv 0 genesis) :=
      AList.lookup_insert _
    cases hr'.symm.trans hr
    exact Mem.slice_take _ _ _ _ (header_le_blockComputeSize _ _ _)
  · rw [hblock]
    intro hmem
    have hheight : blockGetHeight sampleEnv.host genesis = 0 := by decide
    rw [receivedFilings, hheight, blockFilings_zero] at hmem
    exact absurd hmem (by decide)

theorem genesis_run :
    ReflTransGen (Guarded (Receives sampleEnv) (KeepsChain sampleEnv))
      (⟨0, fun _ => 0⟩, genesisNode)
      (⟨0, fun _ => 0⟩, fileBlock sampleEnv .zero genesisNode genesis) :=
  .single ⟨_, genesis_keepsChain, sampleEnv_receives _ _ _ _ _⟩

/-- The invariant survives it. -/
theorem chainInv_genesis_again :
    ChainInv sampleEnv (⟨0, fun _ => 0⟩, genesisNode) ∧
    ReflTransGen (Guarded (Receives sampleEnv) (KeepsChain sampleEnv))
      (⟨0, fun _ => 0⟩, genesisNode)
      (⟨0, fun _ => 0⟩, fileBlock sampleEnv .zero genesisNode genesis) ∧
    ChainInv sampleEnv (⟨0, fun _ => 0⟩, fileBlock sampleEnv .zero genesisNode genesis) :=
  ⟨genesisNode_chainInv, genesis_run, chainInv_of_run _ _ _ genesisNode_chainInv genesis_run⟩

/-- The height read is at least what the uninitialised `highest` held. -/
theorem highest_le_varGetHeightLoop (B : Bdb) (o : ByteOrder) (records : List (Bytes × Bytes)) :
    ∀ (highest : UInt32) (header : Mem), highest ≤ varGetHeightLoop B o records highest header := by
  induction records with
  | nil => intro highest header; exact UInt32.le_refl _
  | cons r rest ih =>
      intro highest header
      unfold varGetHeightLoop
      split
      · refine UInt32.le_trans ?_ (ih _ _)
        split
        · next hlt => exact UInt32.le_of_lt hlt
        · exact UInt32.le_refl _
      · exact UInt32.le_refl _

/-- So the invariant promises a chain block at that height. -/
theorem ChainInv.chainHas_highest {u : HeightMem} {dbs : Dbs} (h : ChainInv env (u, dbs)) :
    ∃ x, ChainHas env dbs u.highest x := by
  obtain ⟨x, r, hx, -⟩ := h.block u.highest (highest_le_varGetHeightLoop _ _ _ _ _)
  exact ⟨x, hx⟩

/-- After any block the height is what memory makes of it, and there is nothing
at height 7. -/
theorem chainInv_broken_by_memory :
    ¬ ∀ (env : Env .passed) (s s' : Observed), ChainInv env s →
      ReflTransGen (fun t t' => ∃ m, Receives env t m t') s s' → ChainInv env s' := by
  intro hall
  have hinv := hall sampleEnv _ _ genesisNode_chainInv
    (.single ⟨_, sampleEnv_receives _ ⟨7, fun _ => 0⟩ .zero genesisNode genesis⟩)
  obtain ⟨x, hx⟩ := hinv.chainHas_highest
  have hget := fileBlock_chainGet sampleEnv .zero genesisNode genesis
  exact absurd (genesisNode_chainHas.mp ((ChainHas.congr hget).mp hx)).1 (by decide)

end Freecoin
