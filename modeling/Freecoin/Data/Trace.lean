import Freecoin.Data.Scan
import Freecoin.Data.View

/-!
# What a limbo scan examines

The levels that the loop of `data_limbo_scan` comes to and the hashes that it
looks at on each of them, with the state it finds them in. A scan that never
ends, because a reorganisation never does, has examined something too: the
trace ends where the scan is stuck.

For each hash the code makes at most one call. `scanCalls` is the call it
makes, `decidedCalls` the one the README asks for, and the two agree only on a
hash that is traced back to itself and starts a reorganisation.
-/

namespace Freecoin

open Lib Relation

/-- A level that the loop comes to: its height, the record in the buffer, and the
state. -/
structure LevelVisit : Type where
  height : UInt32
  buffer : Mem
  state : ScanState

/-- A hash that the loop over a level looks at, and the state. -/
structure HashVisit : Type where
  height : UInt32
  hash : Mem
  state : ScanState

variable {B : Bdb} (env : Env B)

/-- The levels that `scanLoop` comes to. -/
def scanVisits (u : RevertMem) (fuel : ℕ) (currHeight : UInt32) :
    ℕ → Option Bytes → Mem → Mem → ScanState → List LevelVisit
  | 0, _, _, _, _ => []
  | n + 1, pos, index, buffer, s =>
      match dbPrev s.dbs.limbo pos with
      | none => []
      | some (key, record) =>
          if B.fits (newDbt index 4) key.length &&
              B.fits (newDbt buffer (limboBufferSize env)) record.length then
            let index := index.load key
            let buffer := buffer.load record
            let height := hostWord32 env.host index
            if height ≤ currHeight then []
            else
              ⟨height, buffer, s⟩ ::
                match scanLevel env u fuel (height - currHeight) buffer s with
                | .error _ => []
                | .ok s => scanVisits u fuel currHeight n (some key) index buffer s
          else []

/-- The levels that a call of `data_limbo_scan` comes to. -/
def limboScanVisits (u : ScanMem) (fuel : ℕ) (dbs : Dbs) : List LevelVisit :=
  scanVisits env u.revert fuel (dataChainGetHeight env u.height dbs) fuel none u.index u.buffer
    ⟨dbs, false, []⟩

/-- The hashes that the loop over a level looks at, at the given indices. -/
def levelVisits (u : RevertMem) (fuel : ℕ) (currHeight height : UInt32) (buffer : Mem) :
    List ℕ → ScanState → List HashVisit
  | [], _ => []
  | i :: rest, s =>
      ⟨height, buffer.shift (4 + sizeSha256 * i), s⟩ ::
        match scanHash env u fuel (height - currHeight) s (buffer.shift (4 + sizeSha256 * i)) with
        | .error _ => []
        | .ok s => levelVisits u fuel currHeight height buffer rest s

/-- The hashes that the loop looks at on a level. -/
def LevelVisit.hashes (u : RevertMem) (fuel : ℕ) (currHeight : UInt32) (v : LevelVisit) :
    List HashVisit :=
  levelVisits env u fuel currHeight v.height v.buffer
    (List.range (limboArray env v.buffer).length.toNat) v.state

/-- Every hash that a call of `data_limbo_scan` examines, in order. -/
def examined (u : ScanMem) (fuel : ℕ) (dbs : Dbs) : List HashVisit :=
  (limboScanVisits env u fuel dbs).flatMap
    (LevelVisit.hashes env u.revert fuel (dataChainGetHeight env u.height dbs))

/-- The trace is that of the loop: working through the visited levels gives what
the loop gives. -/
theorem scanLoop_visits {u : RevertMem} {fuel : ℕ} {currHeight : UInt32} {n : ℕ} :
    ∀ {pos : Option Bytes} {index buffer : Mem} {s s' : ScanState},
      scanLoop env u fuel currHeight n pos index buffer s = .ok s' →
      (scanVisits env u fuel currHeight n pos index buffer s).foldlM
        (fun s v => scanLevel env u fuel (v.height - currHeight) v.buffer s) s = .ok s' := by
  induction n with
  | zero =>
      intro pos index buffer s s' h
      cases h
  | succ n ih =>
      intro pos index buffer s s' h
      rw [scanLoop] at h
      rw [scanVisits]
      cases hprev : dbPrev s.dbs.limbo pos with
      | none =>
          rw [hprev] at h
          exact h
      | some r =>
          obtain ⟨key, record⟩ := r
          rw [hprev] at h
          dsimp only at h ⊢
          split at h
          case isTrue hfits =>
            rw [if_pos hfits]
            split at h
            case isTrue hlow =>
              rw [if_pos hlow]
              exact h
            case isFalse hhigh =>
              obtain ⟨mid, hlevel, hrest⟩ := ok_of_bind h
              rw [if_neg hhigh, List.foldlM_cons, hlevel]
              exact ih hrest
          case isFalse hfits =>
            rw [if_neg hfits]
            exact h

/-- **What one pass of the loop adds to the trace**: nothing, or the level under the
cursor and what follows it. -/
theorem scanVisits_cases (u : RevertMem) (fuel : ℕ) (currHeight : UInt32) (n : ℕ)
    (pos : Option Bytes) (index buffer : Mem) (s : ScanState) :
    scanVisits env u fuel currHeight (n + 1) pos index buffer s = [] ∨
    ∃ key record rest, dbPrev s.dbs.limbo pos = some (key, record) ∧
      currHeight < hostWord32 env.host (index.load key) ∧
      scanVisits env u fuel currHeight (n + 1) pos index buffer s =
        ⟨hostWord32 env.host (index.load key), buffer.load record, s⟩ :: rest ∧
      (rest = [] ∨ ∃ mid, scanLevel env u fuel
          (hostWord32 env.host (index.load key) - currHeight) (buffer.load record) s = .ok mid ∧
        rest = scanVisits env u fuel currHeight n (some key) (index.load key)
          (buffer.load record) mid) := by
  rw [scanVisits]
  split
  · exact .inl rfl
  · rename_i key record hprev
    dsimp only
    split_ifs with _ hlow
    · exact .inl rfl
    · refine .inr ⟨key, record, _, hprev, UInt32.not_le.mp hlow, rfl, ?_⟩
      split
      · exact .inl rfl
      · rename_i mid hmid
        exact .inr ⟨mid, hmid, rfl⟩
    · exact .inl rfl

/-! ## The calls for one hash -/

/-- What the body of the inner loop does about a hash. -/
inductive ScanCall : Type where
  | getdata (missing : Bytes)
  | revert (commonBlockHash newLatest : Bytes)
deriving DecidableEq

/-- The calls as the code makes them; the `else` belongs to the inner `if`. -/
def scanCalls (s : ScanState) (hash : Mem) : List ScanCall :=
  let traced := env.canTraceBack s.dbs hash
  let endHash := traced.2.slice 0 sizeSha256
  if traced.1 then
    if startsReorg env s hash then [.revert (hash.slice 0 sizeSha256) endHash]
    else [.getdata endHash]
  else []

/-- The calls as the README asks for them: a request for the missing block if the
hash cannot be traced back, and otherwise a reorganisation from the common
block to the hash, if the chain is valid and it is the first. -/
def decidedCalls (s : ScanState) (hash : Mem) : List ScanCall :=
  let traced := env.canTraceBack s.dbs hash
  let endHash := traced.2.slice 0 sizeSha256
  if traced.1 then
    if startsReorg env s hash then [.revert endHash (hash.slice 0 sizeSha256)] else []
  else [.getdata endHash]

/-- A hash starts a reorganisation from itself. -/
structure SelfTraced (s : ScanState) (hash : Mem) : Prop where
  traced : (env.canTraceBack s.dbs hash).1 = true
  starts : startsReorg env s hash = true
  itself : (env.canTraceBack s.dbs hash).2.slice 0 sizeSha256 = hash.slice 0 sizeSha256

theorem scanCalls_eq_decidedCalls_iff (s : ScanState) (hash : Mem) :
    scanCalls env s hash = decidedCalls env s hash ↔ SelfTraced env s hash := by
  unfold scanCalls decidedCalls
  dsimp only
  by_cases htraced : (env.canTraceBack s.dbs hash).1 = true
  · rw [if_pos htraced, if_pos htraced]
    by_cases hstarts : startsReorg env s hash = true
    · rw [if_pos hstarts, if_pos hstarts]
      constructor
      · intro h
        obtain ⟨hitself, _⟩ := ScanCall.revert.inj (List.cons.inj h).1
        exact ⟨htraced, hstarts, hitself.symm⟩
      · intro h
        rw [h.itself]
    · rw [if_neg hstarts, if_neg hstarts]
      exact ⟨fun h => absurd h (List.cons_ne_nil _ _), fun h => absurd h.starts hstarts⟩
  · rw [if_neg htraced, if_neg htraced]
    exact ⟨fun h => absurd h.symm (List.cons_ne_nil _ _), fun h => absurd h.traced htraced⟩

/-- One call, made for `hash`; the `<inv>` that follows a reorganisation goes with it. -/
def runScanCall (u : RevertMem) (fuel : ℕ) (above : UInt32) (hash : Mem) (s : ScanState) :
    ScanCall → Except Fault ScanState
  | .getdata missing =>
      .ok { s with sent := s.sent ++ [.msgallGetdata dtypeBlock missing] }
  | .revert common newLatest => do
      let reverted ← dataBlocksRevert env u fuel s.dbs (Mem.ofBytes common) (Mem.ofBytes newLatest)
      let inv := Sent.msgallInv dtypeBlock (hash.slice 0 sizeSha256) above
      return ⟨reverted.2, true, s.sent ++ [inv]⟩

section Passed

variable (env : Env .passed)

/-- `data_blocks_revert` reads 32 bytes of each of its two hashes. -/
theorem dataBlocksRevert_congr (u : RevertMem) (fuel : ℕ) (dbs : Dbs) {a a' b b' : Mem}
    (ha : a.slice 0 sizeSha256 = a'.slice 0 sizeSha256)
    (hb : b.slice 0 sizeSha256 = b'.slice 0 sizeSha256) :
    dataBlocksRevert env u fuel dbs a b = dataBlocksRevert env u fuel dbs a' b' := by
  have hheader : dataBlocksGetHeader .passed dbs a u.commonBlock =
      dataBlocksGetHeader .passed dbs a' u.commonBlock := by
    have hkey : Bdb.passed.keyBytes (newDbt a sizeSha256) =
        Bdb.passed.keyBytes (newDbt a' sizeSha256) := ha
    rw [dataBlocksGetHeader, dataBlocksGetHeader, dbGet, dbGet, hkey]
  rw [dataBlocksRevert, dataBlocksRevert, hheader, hb]

/-- The body of the inner loop is the calls it makes. -/
theorem scanHash_eq_calls (u : RevertMem) (fuel : ℕ) (above : UInt32) (s : ScanState)
    (hash : Mem) : scanHash env u fuel above s hash =
      (scanCalls env s hash).foldlM (runScanCall env u fuel above hash) s := by
  unfold scanHash scanCalls
  dsimp only
  by_cases htraced : (env.canTraceBack s.dbs hash).1 = true
  · rw [if_pos htraced, if_pos htraced]
    by_cases hstarts : startsReorg env s hash = true
    · have hrevert := dataBlocksRevert_congr env u fuel s.dbs
        (slice_ofBytes (hash.slice_length 0 sizeSha256)).symm
        (slice_ofBytes ((env.canTraceBack s.dbs hash).2.slice_length 0 sizeSha256)).symm
      rw [if_pos hstarts, if_pos hstarts, List.foldlM_cons, runScanCall, hrevert]
      exact (bind_pure _).symm
    · rw [if_neg hstarts, if_neg hstarts]
      rfl
  · rw [if_neg htraced, if_neg htraced]
    rfl

end Passed

/-! ## At most one reorganisation -/

/-- The hash starts a reorganisation. -/
def HashVisit.reorgs (v : HashVisit) : Prop := ∃ a b, .revert a b ∈ scanCalls env v.state v.hash

theorem HashVisit.reorgs_iff (v : HashVisit) :
    v.reorgs env ↔
      (env.canTraceBack v.state.dbs v.hash).1 = true ∧ startsReorg env v.state v.hash = true := by
  unfold HashVisit.reorgs scanCalls
  dsimp only
  by_cases htraced : (env.canTraceBack v.state.dbs v.hash).1 = true
  · rw [if_pos htraced]
    by_cases hstarts : startsReorg env v.state v.hash = true
    · rw [if_pos hstarts]
      exact ⟨fun _ => ⟨htraced, hstarts⟩, fun _ => ⟨_, _, List.mem_singleton_self _⟩⟩
    · rw [if_neg hstarts]
      exact ⟨fun ⟨a, b, h⟩ => absurd h (by simp), fun h => absurd h.2 hstarts⟩
  · rw [if_neg htraced]
    exact ⟨fun ⟨a, b, h⟩ => absurd h List.not_mem_nil, fun h => absurd h.1 htraced⟩

theorem HashVisit.reorgs.not_swapped {env : Env B} {v : HashVisit} (h : v.reorgs env) :
    v.state.alreadySwapped = false := by
  have hstarts := ((v.reorgs_iff env).mp h).2
  rw [startsReorg, Bool.and_eq_true, Bool.not_eq_true'] at hstarts
  exact hstarts.1

/-- The flag stays up, and goes up with a reorganisation. -/
theorem scanHash_swapped {u : RevertMem} {fuel : ℕ} {above : UInt32} (height : UInt32)
    {s s' : ScanState} {hash : Mem} (h : scanHash env u fuel above s hash = .ok s')
    (hs : s.alreadySwapped = true ∨ HashVisit.reorgs env ⟨height, hash, s⟩) :
    s'.alreadySwapped = true := by
  rw [HashVisit.reorgs_iff] at hs
  dsimp only at hs
  unfold scanHash at h
  dsimp only at h
  split at h
  case isTrue htraced =>
    split at h
    case isTrue hstarts =>
      obtain ⟨reverted, _, hret⟩ := ok_of_bind h
      cases hret
      rfl
    case isFalse hstarts =>
      cases h
      exact hs.resolve_right fun hr => hstarts hr.2
  case isFalse htraced =>
    cases h
    exact hs.resolve_right fun hr => htraced hr.1

theorem levelVisits_once (u : RevertMem) (fuel : ℕ) (currHeight height : UInt32) (buffer : Mem)
    (is : List ℕ) :
    ∀ s, ((levelVisits env u fuel currHeight height buffer is s).Pairwise fun v v' =>
        v.reorgs env → v'.state.alreadySwapped = true) ∧
      (s.alreadySwapped = true →
        ∀ v ∈ levelVisits env u fuel currHeight height buffer is s,
          v.state.alreadySwapped = true) ∧
      ∀ s', is.foldlM (fun s i => scanHash env u fuel (height - currHeight) s
          (buffer.shift (4 + sizeSha256 * i))) s = .ok s' →
        (s.alreadySwapped = true ∨
          ∃ v ∈ levelVisits env u fuel currHeight height buffer is s, v.reorgs env) →
        s'.alreadySwapped = true := by
  induction is with
  | nil =>
      intro s
      refine ⟨.nil, fun _ v hv => absurd hv List.not_mem_nil, ?_⟩
      rintro s' h (hs | ⟨v, hv, _⟩)
      · cases h
        exact hs
      · exact absurd hv List.not_mem_nil
  | cons i rest ih =>
      intro s
      rw [levelVisits, List.foldlM_cons]
      cases hhash : scanHash env u fuel (height - currHeight) s
          (buffer.shift (4 + sizeSha256 * i)) with
      | error e =>
          refine ⟨List.pairwise_singleton _ _, ?_, fun s' h => nomatch h⟩
          intro hs v hv
          rw [List.mem_singleton.mp hv]
          exact hs
      | ok mid =>
          dsimp only
          obtain ⟨hpair, hkept, hend⟩ := ih mid
          refine ⟨List.pairwise_cons.mpr ⟨?_, hpair⟩, ?_, ?_⟩
          · intro v hv hreorg
            exact hkept (scanHash_swapped env height hhash (.inr hreorg)) v hv
          · intro hs v hv
            rcases List.mem_cons.mp hv with rfl | hv
            · exact hs
            · exact hkept (scanHash_swapped env height hhash (.inl hs)) v hv
          · intro s' hrun hs
            refine hend s' hrun ?_
            rcases hs with hs | ⟨v, hv, hreorg⟩
            · exact .inl (scanHash_swapped env height hhash (.inl hs))
            · rcases List.mem_cons.mp hv with rfl | hv
              · exact .inl (scanHash_swapped env height hhash (.inr hreorg))
              · exact .inr ⟨v, hv, hreorg⟩

theorem scanVisits_once (u : RevertMem) (fuel : ℕ) (currHeight : UInt32) {n : ℕ} :
    ∀ (pos : Option Bytes) (index buffer : Mem) (s : ScanState),
      (((scanVisits env u fuel currHeight n pos index buffer s).flatMap
          (LevelVisit.hashes env u fuel currHeight)).Pairwise fun v v' =>
        v.reorgs env → v'.state.alreadySwapped = true) ∧
      (s.alreadySwapped = true →
        ∀ v ∈ (scanVisits env u fuel currHeight n pos index buffer s).flatMap
          (LevelVisit.hashes env u fuel currHeight), v.state.alreadySwapped = true) := by
  induction n with
  | zero => intro pos index buffer s; exact ⟨.nil, fun _ v hv => absurd hv List.not_mem_nil⟩
  | succ n ih =>
      intro pos index buffer s
      rcases scanVisits_cases env u fuel currHeight n pos index buffer s with
        hnil | ⟨key, record, rest, _, _, hcons, hrest⟩
      · rw [hnil]
        exact ⟨.nil, fun _ v hv => absurd hv List.not_mem_nil⟩
      · obtain ⟨hpair, hkept, hend⟩ := levelVisits_once env u fuel currHeight
          (hostWord32 env.host (index.load key)) (buffer.load record)
          (List.range (limboArray env (buffer.load record)).length.toNat) s
        rw [hcons, List.flatMap_cons]
        rcases hrest with rfl | ⟨mid, hlevel, rfl⟩
        · rw [List.flatMap_nil, List.append_nil]
          exact ⟨hpair, hkept⟩
        · obtain ⟨hpair', hkept'⟩ := ih (some key) (index.load key) (buffer.load record) mid
          refine ⟨List.pairwise_append.mpr ⟨hpair, hpair', ?_⟩, ?_⟩
          · intro v hv v' hv' hreorg
            exact hkept' (hend mid hlevel (.inr ⟨v, hv, hreorg⟩)) v' hv'
          · intro hs v hv
            rcases List.mem_append.mp hv with hv | hv
            · exact hkept hs v hv
            · exact hkept' (hend mid hlevel (.inl hs)) v hv

/-- The loop comes to levels above the chain only. -/
theorem scanVisits_height {u : RevertMem} {fuel : ℕ} {currHeight : UInt32} {n : ℕ} :
    ∀ {pos : Option Bytes} {index buffer : Mem} {s : ScanState},
      ∀ v ∈ scanVisits env u fuel currHeight n pos index buffer s, currHeight < v.height := by
  induction n with
  | zero => intro pos index buffer s v hv; exact absurd hv List.not_mem_nil
  | succ n ih =>
      intro pos index buffer s v hv
      rcases scanVisits_cases env u fuel currHeight n pos index buffer s with
        hnil | ⟨key, record, rest, _, hhigh, hcons, hrest⟩
      · rw [hnil] at hv
        exact absurd hv List.not_mem_nil
      · rw [hcons] at hv
        rcases List.mem_cons.mp hv with rfl | hv
        · exact hhigh
        · rcases hrest with rfl | ⟨mid, _, rfl⟩
          · exact absurd hv List.not_mem_nil
          · exact ih v hv

theorem levelVisits_height {u : RevertMem} {fuel : ℕ} {currHeight height : UInt32} {buffer : Mem}
    {is : List ℕ} : ∀ {s : ScanState},
      ∀ v ∈ levelVisits env u fuel currHeight height buffer is s, v.height = height := by
  induction is with
  | nil => intro s v hv; exact absurd hv List.not_mem_nil
  | cons i rest ih =>
      intro s v hv
      rw [levelVisits] at hv
      rcases List.mem_cons.mp hv with rfl | hv
      · rfl
      · split at hv
        · exact absurd hv List.not_mem_nil
        · exact ih v hv

/-! ## The decisions of a scan -/

/-- The scan decides as the README says: about every hash it examines it makes the
calls asked for, it reorganises at most once, and only for a hash listed above
the chain. -/
structure DecidesAsDocumented (u : ScanMem) (dbs : Dbs) : Prop where
  calls : ∀ fuel, ∀ v ∈ examined env u fuel dbs,
    scanCalls env v.state v.hash = decidedCalls env v.state v.hash
  once : ∀ fuel, (examined env u fuel dbs).Pairwise fun v v' => ¬ (v.reorgs env ∧ v'.reorgs env)
  higher : ∀ fuel, ∀ v ∈ examined env u fuel dbs, v.reorgs env →
    dataChainGetHeight env u.height dbs < v.height

/-- **Scan decisions.** A scan decides as documented exactly when every hash it
examines is traced back to itself, is the head of a valid chain, and comes
before any reorganisation. -/
theorem scan_decides_iff (env : Env B) (u : ScanMem) (dbs : Dbs) :
    DecidesAsDocumented env u dbs ↔
      ∀ fuel, ∀ v ∈ examined env u fuel dbs, SelfTraced env v.state v.hash := by
  constructor
  · intro h fuel v hv
    exact (scanCalls_eq_decidedCalls_iff env v.state v.hash).mp (h.calls fuel v hv)
  · intro h
    refine ⟨?_, ?_, ?_⟩
    · intro fuel v hv
      exact (scanCalls_eq_decidedCalls_iff env v.state v.hash).mpr (h fuel v hv)
    · intro fuel
      refine (scanVisits_once env u.revert fuel (dataChainGetHeight env u.height dbs) none u.index
        u.buffer ⟨dbs, false, []⟩).1.imp ?_
      rintro v v' hflag ⟨hv, hv'⟩
      exact Bool.noConfusion (hv'.not_swapped.symm.trans (hflag hv))
    · intro fuel v hv _
      obtain ⟨level, hlevel, hv⟩ := List.mem_flatMap.mp hv
      rw [levelVisits_height env v hv]
      exact scanVisits_height env level hlevel

/-- The child of `genesis` is in limbo and cannot be traced back. The scan examines
it and asks nobody for anything. -/
theorem untraced_child_not_requested :
    ¬ DecidesAsDocumented sampleEnv ⟨⟨0, fun _ => 0⟩, fun _ => 0, fun _ => 0, .zero⟩ forkNode := by
  intro h
  have hheight : dataChainGetHeight sampleEnv ⟨0, fun _ => 0⟩ forkNode = 0 := genesisNode_height
  have hvisit : (⟨1, Mem.shift (Mem.load (fun _ => 0) ([1, 0, 0, 0] ++ childHash)) 4,
      ⟨forkNode, false, []⟩⟩ : HashVisit) ∈
        examined sampleEnv ⟨⟨0, fun _ => 0⟩, fun _ => 0, fun _ => 0, .zero⟩ 1 forkNode := by
    unfold examined limboScanVisits
    rw [hheight]
    exact List.mem_cons_self ..
  exact absurd (h.calls 1 _ hvisit) (List.cons_ne_nil _ _).symm

end Freecoin
