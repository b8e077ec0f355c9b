import Freecoin.Network.Exchange

/-!
# The mempool over a run

Any sequence of `data_mempool_add`, from the `CTYPE_TX` branch with its look
at the size limit or from `data_blocks_revert` without one, and
`data_mempool_del`, from the mempool of `m_dbs_init` on. What is handed to an
addition is written down next to the slot it is for, so that an entry can be
compared with what it was made from.
-/

namespace Freecoin

open Lib

/-- A call that changes the mempool, with the memory it is handed uninitialised. -/
inductive PoolCall : Type where
  | received (dest : Mem) (u : EntryMem) (msg : Mem)
  | reverted (u : EntryMem) (tx : Mem)
  | del (hash : Bytes)

/-- The databases, and for each slot of the mempool the transaction its entry was
made from. -/
structure PoolState : Type where
  dbs : Dbs
  passed : ℕ → Option Mem

/-- The state after `m_dbs_init`. -/
def poolInit (dbs : Dbs) : PoolState := ⟨{ dbs with mempool := mempoolInit }, fun _ => none⟩

variable {B : Bdb} (env : Env B)

/-- What the call does to the databases. -/
def PoolCall.run (dbs : Dbs) : PoolCall → Except Fault Dbs
  | .received dest u msg => handleTx env dest u dbs msg
  | .reverted u tx => do
      let mempool ← dataMempoolAdd env.host env.digest u dbs.mempool tx
      return { dbs with mempool := mempool }
  | .del hash => do
      let deleted ← dataMempoolDel dbs.mempool hash
      return { dbs with mempool := deleted.2 }

/-- The memory and the transaction that the call gives to `data_mempool_add`, if it
gets that far. -/
def PoolCall.adds (p : Mempool) : PoolCall → Option (EntryMem × Mem)
  | .received dest u msg =>
      if p.count < env.maxMempoolSize then
        (rebuiltTx env dest msg).toOption.map fun tx => (u, tx.1)
      else none
  | .reverted u tx => some (u, tx)
  | .del _ => none

/-- The slot that the call takes an entry out of. -/
def PoolCall.takes (p : Mempool) : PoolCall → Option ℕ
  | .del hash => (mempoolFind MTx.raw p.txs hash p.count 0).toOption.join
  | _ => none

/-- The notes move with the slots: a new entry gets one, and the slot that fills a
gap brings its own. -/
def PoolCall.note (p p' : Mempool) (passed : ℕ → Option Mem) (call : PoolCall) :
    ℕ → Option Mem :=
  match call.adds env p, call.takes p with
  | some (_, tx), _ =>
      if p'.count = p.count then passed else Function.update passed p.count (some tx)
  | none, some i => if 0 < p.count - 1 then Function.update passed i (passed p.count) else passed
  | none, none => passed

def poolStep (s : PoolState) (call : PoolCall) : Except Fault PoolState := do
  let dbs ← call.run env s.dbs
  return ⟨dbs, call.note env s.dbs.mempool dbs.mempool s.passed⟩

/-- The state after the calls, unless the process has died. -/
def poolRun (dbs : Dbs) (calls : List PoolCall) : Except Fault PoolState :=
  calls.foldlM (poolStep env) (poolInit dbs)

/-! ## The invariant -/

/-- The entry is the transaction it was made from. -/
structure EntryOf (tx : Mem) (e : MTx) : Prop where
  data : e.data = txBytes env.host tx
  size : e.size = txGetSize env.host tx
  hash : e.hash = env.digest e.data

/-- The slots in use hold the entries `l`, which are what was passed in, differ in
their hashes, and lie in the array that was allocated. -/
structure PoolHolds (s : PoolState) (l : List MTx) : Prop extends Slots s.dbs.mempool l where
  distinct : (l.map MTx.hash).Nodup
  made : ∀ i (h : i < l.length), ∃ tx, s.passed i = some tx ∧ EntryOf env tx l[i]
  room : l.length ≤ txCountSoftLimit

/-- The invariant of the mempool. -/
def MempoolInv (s : PoolState) : Prop := ∃ l, PoolHolds env s l

/-- A call that does the mempool no harm. A transaction that is not in the mempool
finds its own bytes in the memory allocated for it and a free slot in the
array, and a deletion that hits an entry hits the last one. -/
structure PoolCall.Harmless (s : PoolState) (call : PoolCall) : Prop where
  adds : ∀ u tx, call.adds env s.dbs.mempool = some (u, tx) →
    dataMempoolExists s.dbs.mempool (txComputeHash env.host env.digest tx) = .ok true ∨
      (u.data.slice 0 (txGetSize env.host tx) = txBytes env.host tx ∧
        s.dbs.mempool.count < txCountSoftLimit)
  takes : ∀ i, call.takes s.dbs.mempool = some i → i + 1 = s.dbs.mempool.count

/-! ## One call -/

/-- The state after an addition of a transaction that the mempool does not have. -/
def PoolState.added (s : PoolState) (u : EntryMem) (tx : Mem) : PoolState where
  dbs := { s.dbs with mempool := ⟨Function.update s.dbs.mempool.txs s.dbs.mempool.count
    (some (mempoolEntry env.host env.digest u tx)), s.dbs.mempool.count + 1⟩ }
  passed := Function.update s.passed s.dbs.mempool.count (some tx)

/-- The state after a deletion of the entry in slot `i`. -/
def PoolState.deleted (s : PoolState) (i : ℕ) : PoolState where
  dbs := { s.dbs with mempool :=
    ⟨Function.update (if 0 < s.dbs.mempool.count - 1 then
        Function.update s.dbs.mempool.txs i (s.dbs.mempool.txs s.dbs.mempool.count)
      else s.dbs.mempool.txs) s.dbs.mempool.count none, s.dbs.mempool.count - 1⟩ }
  passed := if 0 < s.dbs.mempool.count - 1 then
    Function.update s.passed i (s.passed s.dbs.mempool.count) else s.passed

variable {env} {s s' : PoolState} {call : PoolCall} {l : List MTx}

/-- A call that adds is `data_mempool_add`, with a note for a new entry. -/
theorem poolStep_adds {u : EntryMem} {tx : Mem}
    (h : call.adds env s.dbs.mempool = some (u, tx)) :
    poolStep env s call = do
      let mempool ← dataMempoolAdd env.host env.digest u s.dbs.mempool tx
      return ⟨{ s.dbs with mempool := mempool },
        if mempool.count = s.dbs.mempool.count then s.passed
        else Function.update s.passed s.dbs.mempool.count (some tx)⟩ := by
  have hnote : ∀ p' : Mempool, call.note env s.dbs.mempool p' s.passed =
      if p'.count = s.dbs.mempool.count then s.passed
      else Function.update s.passed s.dbs.mempool.count (some tx) := by
    intro p'
    rw [PoolCall.note, h]
  simp only [poolStep, hnote]
  cases call with
  | received dest u' msg =>
      simp only [PoolCall.adds] at h
      split at h
      · rename_i hroom
        cases hbuilt : rebuiltTx env dest msg with
        | error e => rw [hbuilt] at h; cases h
        | ok built =>
            rw [hbuilt] at h
            cases h
            simp only [PoolCall.run, handleTx_room hroom, hbuilt, bind, Except.bind]
            cases dataMempoolAdd env.host env.digest u s.dbs.mempool built.1 <;> rfl
      · cases h
  | reverted u' tx' =>
      cases h
      simp only [PoolCall.run, bind, Except.bind]
      cases dataMempoolAdd env.host env.digest u s.dbs.mempool tx <;> rfl
  | del hash => cases h

/-- Only a deletion takes an entry out, and it is the one its search ends at. -/
theorem PoolCall.del_of_takes {p : Mempool} {i : ℕ} (h : call.takes p = some i) :
    ∃ hash, call = .del hash ∧ mempoolFind MTx.raw p.txs hash p.count 0 = .ok (some i) := by
  cases call with
  | received dest u msg => cases h
  | reverted u tx => cases h
  | del hash =>
      refine ⟨hash, rfl, ?_⟩
      cases hfound : mempoolFind MTx.raw p.txs hash p.count 0 with
      | error e => rw [PoolCall.takes, hfound] at h; cases h
      | ok found =>
          rw [PoolCall.takes, hfound] at h
          exact congrArg _ h

theorem PoolCall.takes_lt {p : Mempool} {i : ℕ} (h : call.takes p = some i) : i < p.count := by
  obtain ⟨hash, -, hfind⟩ := PoolCall.del_of_takes h
  have hlt := (mempoolFind_some hfind).2
  rwa [Nat.zero_add] at hlt

theorem PoolCall.not_adds_and_takes {p : Mempool} {a : EntryMem × Mem} {i : ℕ}
    (hadds : call.adds env p = some a) : call.takes p ≠ some i := by
  intro htakes
  obtain ⟨hash, rfl, -⟩ := PoolCall.del_of_takes htakes
  cases hadds

/-- A call that takes an entry out closes the gap with the slot after the last one. -/
theorem poolStep_takes {i : ℕ} (h : call.takes s.dbs.mempool = some i) :
    poolStep env s call = .ok (s.deleted i) := by
  obtain ⟨hash, rfl, hfind⟩ := PoolCall.del_of_takes h
  have hnote : ∀ p' : Mempool, PoolCall.note env s.dbs.mempool p' s.passed (.del hash) =
      (s.deleted i).passed := by
    intro p'
    rw [PoolCall.note, h]
    rfl
  simp only [poolStep, PoolCall.run, dataMempoolDel, hfind, hnote]
  rfl

/-- Any other call leaves everything as it was, or kills the process. -/
theorem poolStep_idle (hadds : call.adds env s.dbs.mempool = none)
    (htakes : call.takes s.dbs.mempool = none) (h : poolStep env s call = .ok s') : s' = s := by
  have hnote : ∀ p' : Mempool, call.note env s.dbs.mempool p' s.passed = s.passed := by
    intro p'
    rw [PoolCall.note, hadds, htakes]
  simp only [poolStep, hnote] at h
  obtain ⟨dbs, hrun, hret⟩ := ok_of_bind h
  cases hret
  suffices hsame : dbs = s.dbs by rw [hsame]
  cases call with
  | received dest u msg =>
      simp only [PoolCall.adds] at hadds
      split at hadds
      · rename_i hroom
        obtain ⟨built, hbuilt, -⟩ := ok_of_bind ((handleTx_room hroom dest u msg).symm.trans hrun)
        rw [hbuilt] at hadds
        cases hadds
      · rename_i hroom
        exact (Except.ok.inj ((if_neg hroom).symm.trans hrun)).symm
  | reverted u tx => cases hadds
  | del hash =>
      obtain ⟨⟨tx, p⟩, hdel, hret⟩ := ok_of_bind hrun
      cases hret
      rw [dataMempoolDel] at hdel
      obtain ⟨found, hfind, hret⟩ := ok_of_bind hdel
      rw [PoolCall.takes, hfind] at htakes
      cases htakes
      cases hret
      rfl

/-- Past the slots in use there is nothing, except that the last deletion of all
leaves the first slot as it is. -/
def Tail (p : Mempool) : Prop := ∀ k, p.count ≤ k → 0 < k → p.txs k = none

/-- Memory that shows a transaction hashes to what the transaction hashes to. -/
theorem txComputeHash_of_shows {o : ByteOrder} (H : Digest) {data tx : Mem}
    (h : data.slice 0 (txGetSize o tx) = txBytes o tx) :
    txComputeHash o H data = txComputeHash o H tx := by
  have hagree : Mem.Agree (txGetSize o tx) tx data := (Mem.agree_iff_slice.mpr h).symm
  rw [txComputeHash, txComputeHash, txBytes_congr hagree]

/-- A new entry is what was passed in if the memory it finds shows that already. -/
theorem PoolHolds.added_iff (hs : PoolHolds env s l) {u : EntryMem} {tx : Mem}
    (habsent : txComputeHash env.host env.digest tx ∉ l.map MTx.hash)
    (hslots : Slots (s.added env u tx).dbs.mempool
      (l ++ [mempoolEntry env.host env.digest u tx])) :
    MempoolInv env (s.added env u tx) ↔
      u.data.slice 0 (txGetSize env.host tx) = txBytes env.host tx ∧
        l.length < txCountSoftLimit := by
  have hpassed : (s.added env u tx).passed = Function.update s.passed l.length (some tx) := by
    rw [← hs.count]
    rfl
  constructor
  · rintro ⟨l', hl'⟩
    obtain rfl := hl'.toSlots.unique hslots
    constructor
    · obtain ⟨tx', htx', hentry⟩ := hl'.made l.length (by simp)
      rw [hpassed, Function.update_self, Option.some_inj] at htx'
      subst htx'
      rw [List.getElem_concat_length rfl] at hentry
      exact hentry.data
    · have hroom := hl'.room
      rw [List.length_append, List.length_singleton] at hroom
      exact hroom
  · rintro ⟨hshows, hroom⟩
    have hhash := txComputeHash_of_shows env.digest hshows
    refine ⟨_, hslots, ?_, ?_, ?_⟩
    · rw [List.map_append, List.map_singleton]
      refine List.nodup_append'.mpr ⟨hs.distinct, List.nodup_singleton _, ?_⟩
      rw [List.disjoint_singleton]
      exact fun hmem => habsent (hhash ▸ hmem)
    · intro i hi
      rw [hpassed]
      by_cases hlast : i = l.length
      · subst hlast
        rw [Function.update_self, List.getElem_concat_length rfl]
        exact ⟨tx, rfl, hshows, rfl, hhash.trans (congrArg env.digest.hash hshows.symm)⟩
      · have hlt : i < l.length := by
          rw [List.length_append, List.length_singleton] at hi
          omega
        rw [Function.update_of_ne hlast, List.getElem_append_left hlt]
        exact hs.made i hlt
    · rw [List.length_append]
      exact hroom

/-- A gap anywhere but at the end is filled with nothing. -/
theorem PoolHolds.deleted_iff (hs : PoolHolds env s l) (htail : Tail s.dbs.mempool) {i : ℕ}
    (hi : i < l.length) : MempoolInv env (s.deleted i) ↔ i + 1 = l.length := by
  have htxs : (s.deleted i).dbs.mempool.txs = Function.update (if 0 < l.length - 1 then
      Function.update s.dbs.mempool.txs i (s.dbs.mempool.txs l.length)
      else s.dbs.mempool.txs) l.length none := by
    rw [← hs.count]
    rfl
  have hpassed : (s.deleted i).passed = if 0 < l.length - 1 then
      Function.update s.passed i (s.passed l.length) else s.passed := by
    rw [← hs.count]
    rfl
  have hcount : (s.deleted i).dbs.mempool.count = l.length - 1 := congrArg (· - 1) hs.count
  constructor
  · rintro ⟨l', hl'⟩
    by_contra hne
    have hlen : l'.length = l.length - 1 := hl'.count.symm.trans hcount
    have hslot := hl'.slot i (by omega)
    rw [htxs, Function.update_of_ne (by omega), if_pos (by omega), Function.update_self,
      htail _ (Nat.le_of_eq hs.count) (by omega)] at hslot
    cases hslot
  · intro hlast
    -- the slots before the last one are not touched
    have hkept : ∀ j, j < l.length - 1 →
        (s.deleted i).dbs.mempool.txs j = s.dbs.mempool.txs j ∧
          (s.deleted i).passed j = s.passed j := by
      intro j hj
      have hpos : 0 < l.length - 1 := by omega
      rw [htxs, hpassed, if_pos hpos, if_pos hpos, Function.update_of_ne (by omega),
        Function.update_of_ne (by omega), Function.update_of_ne (by omega)]
      exact ⟨rfl, rfl⟩
    refine ⟨l.dropLast, ⟨?_, ?_⟩, ?_, ?_, ?_⟩
    · rw [hcount, List.length_dropLast]
    · intro j hj
      rw [List.length_dropLast] at hj
      rw [(hkept j hj).1, hs.slot j (by omega), List.getElem_dropLast]
    · rw [List.map_dropLast]
      exact hs.distinct.sublist (List.dropLast_sublist _)
    · intro j hj
      rw [List.length_dropLast] at hj
      rw [(hkept j hj).2, List.getElem_dropLast]
      exact hs.made j (by omega)
    · rw [List.length_dropLast]
      exact (Nat.sub_le _ _).trans hs.room

/-- What a call can do to a mempool that is as it should be. -/
theorem PoolHolds.step_cases (hs : PoolHolds env s l) (h : poolStep env s call = .ok s') :
    (s' = s ∧ call.takes s.dbs.mempool = none ∧
      ∀ u tx, call.adds env s.dbs.mempool = some (u, tx) →
        dataMempoolExists s.dbs.mempool (txComputeHash env.host env.digest tx) = .ok true) ∨
    (∃ u tx, call.adds env s.dbs.mempool = some (u, tx) ∧
      dataMempoolExists s.dbs.mempool (txComputeHash env.host env.digest tx) = .ok false ∧
      s' = s.added env u tx) ∨
    ∃ i, call.takes s.dbs.mempool = some i ∧ s' = s.deleted i := by
  cases htakes : call.takes s.dbs.mempool with
  | some i => exact .inr (.inr ⟨i, rfl, Except.ok.inj (h.symm.trans (poolStep_takes htakes))⟩)
  | none =>
      cases hadds : call.adds env s.dbs.mempool with
      | none => exact .inl ⟨poolStep_idle hadds htakes h, rfl, fun u tx h => by cases h⟩
      | some a =>
          obtain ⟨u, tx⟩ := a
          rw [poolStep_adds hadds] at h
          obtain ⟨r, hr, -⟩ := hs.find MTx.hash (txComputeHash env.host env.digest tx)
          have hexists : dataMempoolExists s.dbs.mempool
              (txComputeHash env.host env.digest tx) = .ok r.isSome := by
            rw [dataMempoolExists, hr]
            rfl
          cases hfound : r.isSome with
          | true =>
              rw [hfound] at hexists
              rw [dataMempoolAdd, hexists] at h
              cases h
              refine .inl ⟨?_, rfl, fun u' tx' h => by cases h; exact hexists⟩
              simp
          | false =>
              rw [hfound] at hexists
              rw [dataMempoolAdd_absent u hexists] at h
              cases h
              refine .inr (.inl ⟨u, tx, rfl, hexists, ?_⟩)
              simp [PoolState.added]

/-- **One call.** A mempool that is as it should be stays so exactly if the call is
harmless. -/
theorem PoolHolds.step_iff (hs : PoolHolds env s l) (htail : Tail s.dbs.mempool)
    (h : poolStep env s call = .ok s') :
    MempoolInv env s' ↔ call.Harmless env s := by
  rcases hs.step_cases h with ⟨rfl, htakes, hthere⟩ | ⟨u, tx, hadds, habsent, rfl⟩ |
    ⟨i, htakes, rfl⟩
  · refine iff_of_true ⟨l, hs⟩ ⟨fun u tx hadds => .inl (hthere u tx hadds), ?_⟩
    intro i hi
    rw [htakes] at hi
    cases hi
  · have hadd := dataMempoolAdd_absent u habsent
    rcases hs.toSlots.add hadd with ⟨hmem, -⟩ | ⟨hnot, hslots⟩
    · obtain ⟨r, hr, hiff⟩ := hs.find MTx.hash (txComputeHash env.host env.digest tx)
      rw [dataMempoolExists, hr] at habsent
      exact absurd (hiff.mpr hmem) (by rw [Except.ok.inj habsent]; exact Bool.false_ne_true)
    · rw [hs.added_iff hnot hslots, ← hs.count]
      constructor
      · rintro hfits
        refine ⟨?_, fun i htakes => absurd htakes (PoolCall.not_adds_and_takes hadds)⟩
        intro u' tx' hadds'
        cases hadds.symm.trans hadds'
        exact .inr hfits
      · intro hharmless
        rcases hharmless.adds u tx hadds with hthere | hfits
        · exact absurd (Except.ok.inj (habsent.symm.trans hthere)) Bool.false_ne_true
        · exact hfits
  · have hi := PoolCall.takes_lt htakes
    rw [hs.count] at hi
    rw [hs.deleted_iff htail hi]
    constructor
    · intro hlast
      refine ⟨fun u tx hadds => absurd htakes (PoolCall.not_adds_and_takes hadds), ?_⟩
      intro j hj
      cases htakes.symm.trans hj
      exact hlast.trans hs.count.symm
    · intro hharmless
      exact (hharmless.takes i htakes).trans hs.count

/-- A harmless call leaves nothing past the slots in use. -/
theorem PoolHolds.tail (hs : PoolHolds env s l) (htail : Tail s.dbs.mempool)
    (hharmless : call.Harmless env s) (h : poolStep env s call = .ok s') :
    Tail s'.dbs.mempool := by
  intro k hk hpos
  rcases hs.step_cases h with ⟨rfl, -, -⟩ | ⟨u, tx, -, -, rfl⟩ | ⟨i, htakes, rfl⟩
  · exact htail k hk hpos
  · dsimp only [PoolState.added] at hk ⊢
    rw [Function.update_of_ne (by omega)]
    exact htail k (by omega) hpos
  · have hlast := hharmless.takes i htakes
    dsimp only [PoolState.deleted] at hk ⊢
    rw [Function.update_apply]
    split
    · rfl
    · rename_i hne
      by_cases hone : 0 < s.dbs.mempool.count - 1
      · rw [if_pos hone, Function.update_apply]
        split
        · exact htail _ (Nat.le_refl _) (by omega)
        · exact htail k (by omega) hpos
      · rw [if_neg hone]
        exact htail k (by omega) hpos

/-! ## Runs -/

variable (env)

/-- The invariant holds in every state that the calls, one after the other, lead to. -/
def MempoolHolds (dbs : Dbs) (calls : List PoolCall) : Prop :=
  ∀ before, before <+: calls → ∀ s, poolRun env dbs before = .ok s → MempoolInv env s

theorem poolRun_snoc (dbs : Dbs) (before : List PoolCall) (call : PoolCall) :
    poolRun env dbs (before ++ [call]) =
      poolRun env dbs before >>= fun s => poolStep env s call := by
  rw [poolRun, List.foldlM_append]
  refine bind_congr fun s => ?_
  rw [List.foldlM_cons]
  exact bind_pure _

theorem mempoolInv_init (dbs : Dbs) : MempoolInv env (poolInit dbs) :=
  ⟨[], ⟨rfl, fun i h => absurd h (Nat.not_lt_zero i)⟩, List.nodup_nil,
    fun i h => absurd h (Nat.not_lt_zero i), Nat.zero_le _⟩

variable {env}

/-- As long as the invariant holds, there is nothing past the slots in use. -/
theorem MempoolHolds.tail {dbs : Dbs} {calls : List PoolCall} (h : MempoolHolds env dbs calls) :
    ∀ s, poolRun env dbs calls = .ok s → Tail s.dbs.mempool := by
  induction calls using List.reverseRecOn with
  | nil =>
      intro s hs
      cases hs
      exact fun k _ _ => rfl
  | append_singleton before call ih =>
      intro s' hs'
      have hbefore : MempoolHolds env dbs before :=
        fun p hp => h p (hp.trans (List.prefix_append before [call]))
      have hinv := h _ (List.prefix_refl _) s' hs'
      rw [poolRun_snoc] at hs'
      obtain ⟨s, hs, hstep⟩ := ok_of_bind hs'
      obtain ⟨l, hl⟩ := hbefore before (List.prefix_refl _) s hs
      have htail := ih hbefore s hs
      exact hl.tail htail ((hl.step_iff htail hstep).mp hinv) hstep

/-- A call that kills the process adds nothing and takes nothing. -/
theorem harmless_of_fault {s : PoolState} {l : List MTx} (hs : PoolHolds env s l)
    {call : PoolCall} {e : Fault} (h : poolStep env s call = .error e) :
    call.Harmless env s := by
  constructor
  · intro u tx hadds
    obtain ⟨r, hr, -⟩ := hs.find MTx.hash (txComputeHash env.host env.digest tx)
    rw [poolStep_adds hadds, dataMempoolAdd, dataMempoolExists, hr] at h
    cases r with
    | none => cases h
    | some i => cases h
  · intro i htakes
    rw [poolStep_takes htakes] at h
    cases h

/-- **Mempool.** The entries in use are what was passed in, with different hashes and
inside the array, in every state of a run exactly if every call of it is
harmless. -/
theorem mempool_holds_iff {B : Bdb} (env : Env B) (dbs : Dbs) (calls : List PoolCall) :
    MempoolHolds env dbs calls ↔ ∀ before call, before ++ [call] <+: calls →
      ∀ s, poolRun env dbs before = .ok s → call.Harmless env s := by
  refine prefixes_iff (fun before => ∀ s, poolRun env dbs before = .ok s → MempoolInv env s)
    (fun before call => ∀ s, poolRun env dbs before = .ok s → call.Harmless env s) calls ?_ ?_
  · intro s hs
    cases hs
    exact mempoolInv_init env dbs
  · intro before call _ hgood
    rw [poolRun_snoc]
    cases hrun : poolRun env dbs before with
    | error e => exact iff_of_true (fun s h => by cases h) fun s h => by cases h
    | ok s =>
        obtain ⟨l, hl⟩ := hgood before (List.prefix_refl _) s hrun
        have htail := MempoolHolds.tail hgood s hrun
        constructor
        · intro hafter t ht
          cases ht
          cases hstep : poolStep env s call with
          | error e => exact harmless_of_fault hl hstep
          | ok s' => exact (hl.step_iff htail hstep).mp (hafter s' hstep)
        · intro hharmless s' hstep
          exact (hl.step_iff htail hstep).mpr (hharmless s rfl)

/-- A `<tx>` of ten zero bytes becomes an entry of whatever bytes `malloc` found. -/
theorem emptyTx_entry_is_ones :
    ¬ MempoolHolds sampleEnv emptyNode
      [.received (fun _ => 0) ⟨fun _ => 1, []⟩ fun _ => 0] := by
  intro h
  have hone := h [.received (fun _ => 0) ⟨fun _ => 1, []⟩ fun _ => 0] (List.prefix_refl _) _ rfl
  obtain ⟨l, hl⟩ := hone
  have hlen : l.length = 1 := hl.count.symm
  obtain ⟨tx, htx, hentry⟩ := hl.made 0 (by omega)
  have hslot := hl.slot 0 (by omega)
  cases htx
  have hdata := congrArg (Option.map MTx.data) hslot
  rw [Option.map_some, hentry.data] at hdata
  exact absurd hdata (by decide)

end Freecoin
