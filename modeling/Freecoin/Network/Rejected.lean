import Freecoin.Data.Limbo
import Freecoin.Network.Handle

/-!
# Rejected blocks

A block that `valid_block` rejects is to leave no trace. It is not stored and
its transactions are not indexed, but it is filed and the limbo is scanned as
for any other block. Filing can leave a trace in one way: the level of the
block is empty, and the memory that becomes its record lists the hash.
-/

namespace Freecoin

open Lib Relation

variable (env : Env .passed)

/-- The block is nowhere in `s'` where it was not in `s`. -/
structure NoTrace (s s' : Dbs) (block : Mem) : Prop where
  chain : ∀ h, ChainHas env s' h (blockComputeHash env.digest block) →
    ChainHas env s h (blockComputeHash env.digest block)
  limbo : ∀ h, LimboLists env s' h (blockComputeHash env.digest block) →
    LimboLists env s h (blockComputeHash env.digest block)
  blocks : ∀ r, s'.blocks.lookup (blockComputeHash env.digest block) = some r →
    s.blocks.lookup (blockComputeHash env.digest block) = some r
  txs : ∀ t ∈ blockTxHashes env.host env.digest block,
    (s'.txs.lookup t).isSome → (s.txs.lookup t).isSome

/-- The block is filed in limbo, on an empty level, and the buffer allocated for
the level lists its hash. -/
def FiledFromMemory (u : BlockMem) (s : Dbs) (block : Mem) : Prop :=
  receivedFilings env u s block = [.limbo] ∧ LevelEmpty env s (blockGetHeight env.host block) ∧
    Lists env (u.limboBuffer.slice 0 (limboBufferSize env)) (blockComputeHash env.digest block)

/-- Every level has a full record or none, as the program writes them. -/
def FullLevels (s : Dbs) : Prop :=
  ∀ h r, s.limbo.lookup (hostBytes32 env.host h) = some r → limboBufferSize env ≤ r.length

/-- A reorganisation that the scan may start has nothing to do with the block: its
limbo buffers do not show the hash, and no block it comes across shares a
transaction that is not yet indexed. -/
structure ReorgLeavesOut (u : RevertMem) (s : Dbs) (block : Mem) : Prop where
  full : FullLevels env s
  add : ∀ i, ¬ Lists env ((u.limboAdd i).slice 0 (limboBufferSize env))
    (blockComputeHash env.digest block)
  del : ∀ k, ¬ Shows (u.limboDel k) (blockComputeHash env.digest block)
  txs : ∀ b, BlockBuffer u s.blocks b → ∀ t ∈ blockTxHashes env.host env.digest b,
    t ∈ blockTxHashes env.host env.digest block → (s.txs.lookup t).isSome

variable {env} {u : BlockMem} {s : Dbs} {block : Mem}

/-! ## Filing -/

theorem not_limboLists_of_empty {h : UInt32} {x : Bytes} (hempty : LevelEmpty env s h) :
    ¬ LimboLists env s h x := by
  rintro ⟨r, hr, -, hlists⟩
  rcases hempty with hnone | hnil
  · rw [hnone] at hr
    cases hr
  · rw [hnil] at hr
    cases hr
    exact not_lists_nil env x hlists

theorem NoTrace.refl (s : Dbs) (block : Mem) : NoTrace env s s block :=
  ⟨fun _ => id, fun _ => id, fun _ => id, fun _ _ => id⟩

/-- **Filing a rejected block** leaves no trace unless it is filed from memory. -/
theorem noTrace_fileBlock_iff (hrej : env.validBlock block = false) :
    NoTrace env s (fileBlock env u s block) block ↔ ¬ FiledFromMemory env u s block := by
  have hstore : storeBlock env u s block = s := storeBlock_of_invalid u s hrej
  rcases fileBlock_cases env u s block with ⟨hfile, h⟩ | ⟨hfile, h⟩ | ⟨hfile, h⟩
  · rw [h, hstore]
    constructor
    · rintro htrace ⟨-, hempty, hlists⟩
      refine not_limboLists_of_empty hempty (htrace.limbo _ ?_)
      exact (limboLists_safeAdd_iff env _ _ _ _ _).mpr (.inr ⟨rfl, hempty, hlists⟩)
    · intro hnot
      refine ⟨fun _ => id, ?_, fun _ => id, fun _ _ => id⟩
      intro height hlisted
      rcases (limboLists_safeAdd_iff env _ _ _ _ _).mp hlisted with hold | ⟨rfl, hempty, hlists⟩
      · exact hold
      · exact absurd ⟨hfile, hempty, hlists⟩ hnot
  · have hnot : ¬ FiledFromMemory env u s block := fun hmem =>
      absurd (hfile.symm.trans hmem.1) (by decide)
    rw [h, hstore]
    refine ⟨fun _ => hnot, fun _ => ?_⟩
    obtain ⟨chain, hset⟩ := dataChainSafeSet_frame env u.chainHeader s block
    refine ⟨?_, ?_, ?_, ?_⟩
    · intro height
      exact (ChainHas.congr (dataChainGet_frozen env _ _ _)).mp
    · rw [hset]; exact fun _ => id
    · rw [hset]; exact fun _ => id
    · rw [hset]; exact fun _ _ => id
  · have hnot : ¬ FiledFromMemory env u s block := fun hmem =>
      absurd (hfile.symm.trans hmem.1) (by decide)
    rw [h, hstore]
    exact ⟨fun _ => hnot, fun _ => .refl s block⟩

/-! ## Reorganisations -/

theorem limboRecord_full (edit : Arr → Bytes → Arr) (buffer : Mem) (hash : Bytes)
    {old : Option Bytes} (hold : ∀ r, old = some r → limboBufferSize env ≤ r.length) :
    limboBufferSize env ≤ (limboRecord env edit buffer hash old).length := by
  cases old with
  | none => simp [limboRecord]
  | some r =>
      have hr := hold r rfl
      rw [limboRecord, Mem.slice_length]
      split
      · exact Nat.le_refl _
      · exact hr

theorem FullLevels.edit {t : Dbs} (h : FullLevels env t) (edit : Arr → Bytes → Arr) (buffer : Mem)
    (b : Mem) : FullLevels env (dataLimboEdit env edit buffer t b) := by
  rw [dataLimboEdit_passed]
  intro height r hr
  by_cases hh : height = blockGetHeight env.host b
  · subst hh
    rw [AList.lookup_insert] at hr
    cases hr
    exact limboRecord_full edit buffer _ fun r' hr' => h _ r' hr'
  · rw [AList.lookup_insert_ne fun heq => hh (hostBytes32_injective _ heq)] at hr
    exact h height r hr

theorem limboLists_del {t : Dbs} (hfull : FullLevels env t) {buffer b : Mem} {x : Bytes}
    (hx : x.length = 32) (hshow : ¬ Shows buffer x) {h : UInt32}
    (hlisted : LimboLists env (dataLimboDel env buffer t b) h x) : LimboLists env t h x := by
  rw [dataLimboDel, dataLimboEdit_passed] at hlisted
  obtain ⟨r, hr, hfit, hlists⟩ := hlisted
  by_cases hh : h = blockGetHeight env.host b
  · subst hh
    rw [AList.lookup_insert] at hr
    cases hr
    exact limboRecord_del_lists env hx hshow (fun r' hr' => hfull _ r' hr') hfit hlists
  · rw [AList.lookup_insert_ne fun heq => hh (hostBytes32_injective _ heq)] at hr
    exact ⟨r, hr, hfit, hlists⟩

/-- One edit of a reorganisation that leaves the block out. -/
theorem NoTrace.edit {v : RevertMem} {t t' : Dbs} (hout : ReorgLeavesOut env v s block)
    (hedit : RevertEdit env v s.blocks t t') (h : NoTrace env s t block ∧ FullLevels env t) :
    NoTrace env s t' block ∧ FullLevels env t' := by
  obtain ⟨htrace, hfull⟩ := h
  cases hedit with
  | txsDel x =>
      refine ⟨⟨htrace.chain, htrace.limbo, htrace.blocks, ?_⟩, hfull⟩
      intro y hy hsome
      by_cases hyx : y = x
      · subst hyx
        rw [AList.lookup_erase] at hsome
        cases hsome
      · rw [AList.lookup_erase_ne hyx] at hsome
        exact htrace.txs y hy hsome
  | @txsAdd b hbuf x hx _ =>
      refine ⟨⟨htrace.chain, htrace.limbo, htrace.blocks, ?_⟩, hfull⟩
      intro y hy hsome
      by_cases hyt : y = x
      · subst hyt
        exact hout.txs b hbuf y hx hy
      · rw [AList.lookup_insert_ne hyt] at hsome
        exact htrace.txs y hy hsome
  | limboAdd i hbuf =>
      refine ⟨⟨htrace.chain, ?_, htrace.blocks, htrace.txs⟩, hfull.edit _ _ _⟩
      intro height hlisted
      rcases (limboLists_safeAdd_iff env _ _ _ _ _).mp hlisted with hold | ⟨-, -, hlists⟩
      · exact htrace.limbo height hold
      · exact absurd hlists (hout.add i)
  | limboDel k hbuf =>
      refine ⟨⟨htrace.chain, ?_, htrace.blocks, htrace.txs⟩, hfull.edit _ _ _⟩
      intro height hlisted
      exact htrace.limbo height
        (limboLists_del hfull (blockComputeHash_length ..) (hout.del k) hlisted)
  | @chainSafeSet k b hbuf =>
      have hget := dataChainGet_frozen env (v.chainHeader k) t b
      obtain ⟨chain, hset⟩ := dataChainSafeSet_frame env (v.chainHeader k) t b
      rw [hset] at hget ⊢
      refine ⟨⟨?_, htrace.limbo, htrace.blocks, htrace.txs⟩, hfull⟩
      intro height hhas
      exact htrace.chain height ((ChainHas.congr hget).mp hhas)
  | mempoolAdd i j tx hadd =>
      exact ⟨⟨htrace.chain, htrace.limbo, htrace.blocks, htrace.txs⟩, hfull⟩
  | mempoolDel x hdel =>
      exact ⟨⟨htrace.chain, htrace.limbo, htrace.blocks, htrace.txs⟩, hfull⟩

theorem FullLevels.file (h : FullLevels env s) (hrej : env.validBlock block = false) :
    FullLevels env (fileBlock env u s block) := by
  have hstore : storeBlock env u s block = s := storeBlock_of_invalid u s hrej
  rcases fileBlock_cases env u s block with ⟨_, hf⟩ | ⟨_, hf⟩ | ⟨_, hf⟩
  · rw [hf, hstore]
    exact h.edit _ _ _
  · obtain ⟨chain, hset⟩ := dataChainSafeSet_frame env u.chainHeader s block
    rw [hf, hstore, hset]
    exact h
  · rw [hf, hstore]
    exact h

/-- **A rejected block.** When no reorganisation starts, the branch ends without a
trace of the block exactly if the block is not filed from memory. A
reorganisation that leaves the block out makes no difference to that. -/
theorem rejected_noTrace_iff (env : Env .passed) (u : BlockMem) (s : Dbs) (msg : Mem)
    (hrej : env.validBlock (msg.shift 4) = false) :
    (NoReorg env u.scan (fileBlock env u s (msg.shift 4)) →
      ((∃ s', Handles env s (.block u msg) s' ∧ NoTrace env s s' (msg.shift 4)) ↔
        ¬ FiledFromMemory env u s (msg.shift 4))) ∧
    (ReorgLeavesOut env u.scan.revert s (msg.shift 4) → ¬ FiledFromMemory env u s (msg.shift 4) →
      ∀ s', Handles env s (.block u msg) s' → NoTrace env s s' (msg.shift 4)) := by
  constructor
  · intro hno
    simp only [handleBlock_quiet hno, exists_eq_left]
    exact noTrace_fileBlock_iff hrej
  · intro hout hnot s' hstep
    have hstore : (storeBlock env u s (msg.shift 4)).blocks = s.blocks := by
      rw [storeBlock_of_invalid u s hrej]
    refine (hstep.block_rule (P := fun t => NoTrace env s t (msg.shift 4) ∧ FullLevels env t)
      ⟨(noTrace_fileBlock_iff hrej).mpr hnot, hout.full.file hrej⟩ ?_).1
    intro _ t t' _ hedit ht
    rw [hstore] at hedit
    exact NoTrace.edit hout hedit ht

/-! ## A node that rejects everything -/

def rejectingEnv : Env .passed := { sampleEnv with validBlock := fun _ => false }

theorem rejectingEnv_noReorg (u : ScanMem) (dbs : Dbs) : NoReorg rejectingEnv u dbs :=
  fun _ _ => rfl

/-- A block of zeros on an empty node, with zero in memory: the empty level gets a
record that lists nothing. -/
theorem rejected_zeroBlock_noTrace :
    rejectingEnv.validBlock ((blockMsg fun _ => 0).shift 4) = false ∧
    ∃ s', Handles rejectingEnv emptyNode (.block .zero (blockMsg fun _ => 0)) s' ∧
      NoTrace rejectingEnv emptyNode s' ((blockMsg fun _ => 0).shift 4) := by
  refine ⟨rfl, ((rejected_noTrace_iff rejectingEnv .zero _ _ rfl).1
    (rejectingEnv_noReorg _ _)).mpr ?_⟩
  rintro ⟨-, -, i, hi, -⟩
  exact absurd hi (by simp [show btoui rejectingEnv.host (Mem.ofBytes
    (BlockMem.zero.limboBuffer.slice 0 (limboBufferSize rejectingEnv))) = 0 by decide])

/-- The same block when the buffer for its level happens to hold a count of one
and its hash. -/
def listingMem : BlockMem :=
  { BlockMem.zero with
    limboBuffer := Mem.ofBytes ([1, 0, 0, 0] ++ blockComputeHash sha256 fun _ => 0) }

theorem listingMem_filed (s : Dbs) (h : LevelEmpty rejectingEnv s 0) :
    FiledFromMemory rejectingEnv listingMem s fun _ => 0 := by
  have hheight : blockGetHeight rejectingEnv.host (fun _ => 0) = 0 := by decide
  have hlen : ([1, 0, 0, 0] ++ blockComputeHash sha256 fun _ => 0).length =
      limboBufferSize rejectingEnv := by simp [limboBufferSize, rejectingEnv, sampleEnv]
  refine ⟨?_, by rwa [hheight], ?_⟩
  · rw [receivedFilings, hheight, blockFilings_zero]
  · rw [listingMem, slice_ofBytes hlen]
    exact ⟨0, by decide, List.take_of_length_le (by simp)⟩

/-- It is then listed in limbo, though rejected. -/
theorem rejected_zeroBlock_listed :
    ¬ ∀ (env : Env .passed) (u : BlockMem) (s : Dbs) (msg : Mem),
      env.validBlock (msg.shift 4) = false → ∀ s', Handles env s (.block u msg) s' →
        NoTrace env s s' (msg.shift 4) := by
  intro hall
  have htrace := hall rejectingEnv listingMem emptyNode (blockMsg fun _ => 0) rfl _
    ((handleBlock_quiet (rejectingEnv_noReorg _ _) _).mpr rfl)
  rw [blockMsg_shift] at htrace
  exact (noTrace_fileBlock_iff rfl).mp htrace (listingMem_filed _ (.inl rfl))

end Freecoin
