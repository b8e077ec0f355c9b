import Freecoin.ArrayBounds
import Freecoin.Data.Limbo

/-!
# Limbo levels as sets

A limbo level is meant to be a set of hashes: a count and that many of them,
each once. `data_limbo_safe_add` and `data_limbo_del` hand the array over by
value, so the count in front of the hashes never changes, and the comparison
in both loops is the wrong way round. A level therefore stays the set it
should be only while nothing has to be written, and while the loops do not
leave the buffer: `LimboCall.Fits` says for each call when that is.
-/

namespace Freecoin

open Lib

variable (env : Env .passed)

/-- A call of `data_limbo_safe_add` or `data_limbo_del`, with the memory it
allocates. -/
inductive LimboCall : Type where
  | add (buffer block : Mem)
  | del (buffer block : Mem)

def LimboCall.block : LimboCall → Mem
  | .add _ block => block
  | .del _ block => block

def LimboCall.buffer : LimboCall → Mem
  | .add buffer _ => buffer
  | .del buffer _ => buffer

/-- The height that the call is about. -/
def LimboCall.height (call : LimboCall) : UInt32 := blockGetHeight env.host call.block

/-- The hash that the call is about. -/
def LimboCall.hash (call : LimboCall) : Bytes := blockComputeHash env.digest call.block

def LimboCall.run (dbs : Dbs) : LimboCall → Dbs
  | .add buffer block => dataLimboSafeAdd env buffer dbs block
  | .del buffer block => dataLimboDel env buffer dbs block

/-- The databases after the calls, from an empty limbo database on. -/
def limboRun (dbs : Dbs) (calls : List LimboCall) : Dbs :=
  calls.foldl (LimboCall.run env) { dbs with limbo := ∅ }

/-- What a call does to the set of hashes of its level. -/
def LimboCall.update (call : LimboCall) (level : Finset Bytes) : Finset Bytes :=
  match call with
  | .add _ _ => insert (call.hash env) level
  | .del _ _ => level.erase (call.hash env)

/-- The hashes of height `h` that were added and not deleted since. -/
def levelSet (h : UInt32) (calls : List LimboCall) : Finset Bytes :=
  calls.foldl (fun level call => if call.height env = h then call.update env level else level) ∅

/-- The hashes that a record lists, in order. -/
def recordHashes (r : Bytes) : List Bytes :=
  (List.range (btoui env.host (Mem.ofBytes r)).toNat).map fun i =>
    (r.drop (4 + sizeSha256 * i)).take sizeSha256

/-- A record lists exactly the hashes of `level`, each once. -/
def ListsExactly (r : Bytes) (level : Finset Bytes) : Prop :=
  (recordHashes env r).Nodup ∧ (recordHashes env r).toFinset = level

/-- The level of height `h` is `level`; a level without a record is empty. -/
def LevelIs (dbs : Dbs) (h : UInt32) (level : Finset Bytes) : Prop :=
  match dbs.limbo.lookup (hostBytes32 env.host h) with
  | none => level = ∅
  | some r => ListsExactly env r level

/-- The slots for hashes that the buffer of a level has. -/
def levelSlots : ℕ := env.limboMaxLevelSize.toNat % 2 ^ 27

/-- The buffer of a call, with the record of its level read into it. -/
def LimboCall.data (dbs : Dbs) (call : LimboCall) : Mem :=
  (dbGet .passed dbs.limbo (newDbt (uintMem env.host (call.height env)) 4)
    (newDbt call.buffer (limboBufferSize env))).2.data

/-- The array function that the call uses gets to its end without leaving the buffer. -/
def LimboCall.StaysInBuffer (dbs : Dbs) (call : LimboCall) : Prop :=
  let arr := limboArray env (call.data env dbs)
  match call with
  | .add _ _ => StaysInside sizeSha256 (levelSlots env) (arrayAddReads arr (call.hash env))
  | .del _ _ => StaysInside sizeSha256 (levelSlots env) (arrayDelReads arr (call.hash env))

/-- Every call returns, with what it touched in its buffer. After each of them every level
is the set it should be, and no call touches another level than its own. -/
structure LimboIsSets (dbs : Dbs) (calls : List LimboCall) : Prop where
  level : ∀ before, before <+: calls → ∀ h,
    LevelIs env (limboRun env dbs before) h (levelSet env h before)
  frame : ∀ before call, before ++ [call] <+: calls → ∀ h, h ≠ call.height env →
    (limboRun env dbs (before ++ [call])).limbo.lookup (hostBytes32 env.host h) =
      (limboRun env dbs before).limbo.lookup (hostBytes32 env.host h)
  inside : ∀ before call, before ++ [call] <+: calls →
    call.StaysInBuffer env (limboRun env dbs before)

/-- No call before this one was about its level. -/
def LimboCall.first (before : List LimboCall) (call : LimboCall) : Prop :=
  ∀ c ∈ before, c.height env ≠ call.height env

/-- The call leaves a level that is the set it should be. A first addition finds in
its uninitialised buffer a record of exactly its hash, a first deletion a
count of zero; a later addition is of a hash already there, a later deletion
of one that is not, from at most one. -/
def LimboCall.FitsLevel (before : List LimboCall) (call : LimboCall) : Prop :=
  match call with
  | .add buffer _ =>
      (call.first env before ∧
        recordHashes env (buffer.slice 0 (limboBufferSize env)) = [call.hash env]) ∨
      (¬ call.first env before ∧ call.hash env ∈ levelSet env (call.height env) before)
  | .del buffer _ =>
      (call.first env before ∧ btoui env.host buffer = 0) ∨
      (¬ call.first env before ∧ call.hash env ∉ levelSet env (call.height env) before ∧
        (levelSet env (call.height env) before).card ≤ 1)

/-- The call does not leave its buffer. An addition gets through the slots or to one that
differs from its hash; a deletion gets through the slots, and the slots that
differ from its hash are at most one more than the count. -/
def LimboCall.FitsBuffer (dbs : Dbs) (call : LimboCall) : Prop :=
  let arr := limboArray env (call.data env dbs)
  match call with
  | .add _ _ => env.limboMaxLevelSize.toNat ≤ 2 ^ 26 ∨
      ∃ k < 2 ^ 26, k < levelSlots env ∧ arr.elem k ≠ call.hash env
  | .del _ _ => env.limboMaxLevelSize.toNat ≤ 2 ^ 26 ∧
      arr.differing (call.hash env) arr.size ≤ arr.length.toNat + 1

def LimboCall.Fits (dbs : Dbs) (before : List LimboCall) (call : LimboCall) : Prop :=
  call.FitsLevel env before ∧ call.FitsBuffer env (limboRun env dbs before)

/-! ## Records -/

theorem limboBufferSize_slots : limboBufferSize env = 4 + sizeSha256 * levelSlots env :=
  limboBufferSize_eq env

theorem levelSlots_le : levelSlots env ≤ env.limboMaxLevelSize.toNat := Nat.mod_le _ _

/-- The products in the loops stay in an `int` if the slots are not more than `2 ^ 26`. -/
theorem reaches_all_iff (data : Mem) :
    (∀ i < env.limboMaxLevelSize.toNat, (limboArray env data).Reaches (levelSlots env) i) ↔
      env.limboMaxLevelSize.toNat ≤ 2 ^ 26 := by
  simp only [Arr.reaches_iff (rfl : (limboArray env data).usize = 32), levelSlots]
  constructor
  · intro h
    by_contra hbig
    exact absurd (h (2 ^ 26) (Nat.not_le.mp hbig)).2 (Nat.lt_irrefl _)
  · intro h i hi
    rw [Nat.mod_eq_of_lt (by omega)]
    exact ⟨hi, hi.trans_le h⟩

theorem recordHashes_length (r : Bytes) :
    (recordHashes env r).length = (btoui env.host (Mem.ofBytes r)).toNat := by
  rw [recordHashes, List.length_map, List.length_range]

/-- The hashes of a record that was cut from memory. -/
theorem recordHashes_slice (m : Mem) (h : (btoui env.host m).toNat ≤ levelSlots env) :
    recordHashes env (m.slice 0 (limboBufferSize env)) =
      (List.range (btoui env.host m).toNat).map fun i =>
        m.slice (4 + sizeSha256 * i) sizeSha256 := by
  rw [recordHashes, btoui_ofBytes_slice env.host m (four_le_limboBufferSize env)]
  apply List.map_congr_left
  intro i hi
  refine Mem.drop_take_slice m ?_
  have hi := List.mem_range.mp hi
  rw [limboBufferSize_slots, sizeSha256]
  omega

theorem listsExactly_card {r : Bytes} {level : Finset Bytes} (h : ListsExactly env r level) :
    level.card = (btoui env.host (Mem.ofBytes r)).toNat := by
  rw [← h.2, List.toFinset_card_of_nodup h.1, recordHashes_length]

/-- A level that is a set of hashes has slots for them. -/
theorem listsExactly_card_le {r : Bytes} {level : Finset Bytes} (h : ListsExactly env r level)
    (hlen : r.length = limboBufferSize env) (hhash : ∀ y ∈ level, y.length = sizeSha256) :
    level.card ≤ levelSlots env := by
  rw [listsExactly_card env h]
  by_contra hmany
  have hmem : (r.drop (4 + sizeSha256 * levelSlots env)).take sizeSha256 ∈ level := by
    rw [← h.2, List.mem_toFinset]
    exact List.mem_map_of_mem (List.mem_range.mpr (Nat.not_le.mp hmany))
  have hshort := hhash _ hmem
  rw [limboBufferSize_slots] at hlen
  simp [hlen, sizeSha256] at hshort

theorem listsExactly_singleton {r x : Bytes} :
    ListsExactly env r {x} ↔ recordHashes env r = [x] := by
  constructor
  · intro h
    have hlen : (recordHashes env r).length = 1 := by
      rw [← List.toFinset_card_of_nodup h.1, h.2, Finset.card_singleton]
    obtain ⟨y, hy⟩ := List.length_eq_one_iff.mp hlen
    have hset := h.2
    rw [hy] at hset ⊢
    rw [List.toFinset_cons, List.toFinset_nil, insert_empty_eq] at hset
    rw [Finset.singleton_inj.mp hset]
  · intro h
    rw [ListsExactly, h]
    exact ⟨List.nodup_singleton x, by simp⟩

theorem listsExactly_empty {r : Bytes} :
    ListsExactly env r ∅ ↔ btoui env.host (Mem.ofBytes r) = 0 := by
  constructor
  · intro h
    have hcard := listsExactly_card env h
    rw [Finset.card_empty] at hcard
    exact UInt32.toNat_inj.mp hcard.symm
  · intro h
    have hnil : recordHashes env r = [] :=
      List.eq_nil_of_length_eq_zero (by rw [recordHashes_length, h]; rfl)
    rw [ListsExactly, hnil]
    exact ⟨List.nodup_nil, rfl⟩

/-! ## Deletion from a level -/

/-- The record that `data_limbo_del` puts back when `data` is in its buffer. -/
def delRecord (data : Mem) (x : Bytes) : Bytes :=
  (data.splice 4 (arrayDel (limboArray env data) x).data).slice 0 (limboBufferSize env)

theorem delRecord_count (data : Mem) (x : Bytes) :
    btoui env.host (Mem.ofBytes (delRecord env data x)) = btoui env.host data := by
  rw [delRecord, btoui_ofBytes_slice env.host _ (four_le_limboBufferSize env), btoui_splice]

section Level

variable {data : Mem} (h : (btoui env.host data).toNat ≤ levelSlots env)

include h

theorem recordHashes_limboArray :
    recordHashes env (data.slice 0 (limboBufferSize env)) =
      (List.range (btoui env.host data).toNat).map (limboArray env data).elem := by
  rw [recordHashes_slice env data h]
  apply List.map_congr_left
  intro i _
  exact (Mem.slice_shift data 4 (32 * i) 32).symm

theorem recordHashes_delRecord (x : Bytes) :
    recordHashes env (delRecord env data x) =
      (List.range (btoui env.host data).toNat).map (arrayDel (limboArray env data) x).elem := by
  rw [delRecord, recordHashes_slice env _ (by rw [btoui_splice]; exact h), btoui_splice]
  apply List.map_congr_left
  intro i _
  have husize : (arrayDel (limboArray env data) x).usize = 32 :=
    (foldl_arrayDelStep_inv (limboArray env data) rfl x _).usize
  have hshift := Mem.slice_shift (data.splice 4 (arrayDel (limboArray env data) x).data) 4
    (sizeSha256 * i) sizeSha256
  rw [Mem.shift_splice] at hshift
  rw [← hshift, Arr.elem, husize]
  rfl

end Level

/-- A deletion keeps the list of a level in order only if there is nothing to delete,
and at most one hash to damage. -/
theorem listsExactly_delRecord {data : Mem} {level : Finset Bytes}
    (hlevel : ListsExactly env (data.slice 0 (limboBufferSize env)) level)
    (hmax : level.card ≤ levelSlots env) (x : Bytes) :
    ListsExactly env (delRecord env data x) (level.erase x) ↔ x ∉ level ∧ level.card ≤ 1 := by
  have hcard := listsExactly_card env hlevel
  rw [btoui_ofBytes_slice env.host data (four_le_limboBufferSize env)] at hcard
  have hbound : (btoui env.host data).toNat ≤ levelSlots env := hcard ▸ hmax
  have hsize : (limboArray env data).length.toNat ≤ (limboArray env data).size :=
    hbound.trans (levelSlots_le env)
  have hold := recordHashes_limboArray env hbound
  have hnew := recordHashes_delRecord env hbound x
  have hlength : (limboArray env data).length.toNat = level.card := hcard.symm
  -- what is not in the level differs from every element of the array
  have hne : x ∉ level → ∀ i < (limboArray env data).length.toNat,
      (limboArray env data).elem i ≠ x := by
    rintro hx i hi rfl
    refine hx ?_
    rw [← hlevel.2, hold, List.mem_toFinset]
    exact List.mem_map_of_mem (List.mem_range.mpr hi)
  constructor
  · intro hdel
    have hcard' := listsExactly_card env hdel
    rw [delRecord_count, ← hcard] at hcard'
    have hx : x ∉ level := fun hmem =>
      Nat.ne_of_lt (Finset.card_erase_lt_of_mem hmem) hcard'
    refine ⟨hx, ?_⟩
    by_contra htwo
    obtain ⟨i, j, hi, hj, hij, helem⟩ := arrayDel_doubles rfl (hne hx) hsize
      (by omega)
    have hnodup := hdel.1
    rw [hnew] at hnodup
    exact hij (List.inj_on_of_nodup_map hnodup (List.mem_range.mpr hi) (List.mem_range.mpr hj)
      helem)
  · rintro ⟨hx, hone⟩
    have hsame : recordHashes env (delRecord env data x) =
        recordHashes env (data.slice 0 (limboBufferSize env)) := by
      rw [hnew, hold]
      apply List.map_congr_left
      intro i hi
      have hi := List.mem_range.mp hi
      obtain rfl : i = 0 := by omega
      exact arrayDel_single rfl (hne hx) hsize (by omega)
    rw [Finset.erase_eq_of_notMem hx, ListsExactly, hsame]
    exact hlevel

/-! ## Inside the buffer -/

section Inside

variable {data : Mem} {level : Finset Bytes} {x : Bytes}
  (hlevel : ListsExactly env (data.slice 0 (limboBufferSize env)) level)

include hlevel

theorem limboArray_length : (limboArray env data).length.toNat = level.card := by
  rw [listsExactly_card env hlevel,
    btoui_ofBytes_slice env.host data (four_le_limboBufferSize env)]
  rfl

/-- Addition of a hash that the level has. -/
theorem limboArray_add_inside_iff (hhash : ∀ y ∈ level, y.length = sizeSha256) (hx : x ∈ level) :
    StaysInside sizeSha256 (levelSlots env) (arrayAddReads (limboArray env data) x) ↔
      env.limboMaxLevelSize.toNat ≤ 2 ^ 26 ∨
      ∃ k < 2 ^ 26, k < levelSlots env ∧ (limboArray env data).elem k ≠ x := by
  have hcount := limboArray_length env hlevel
  have hslots := listsExactly_card_le env hlevel (Mem.slice_length ..) hhash
  have hpos : 0 < level.card := Finset.card_pos.mpr ⟨x, hx⟩
  have hnodup : (limboArray env data).elems.Nodup := by
    have hlist := hlevel.1
    rw [recordHashes_limboArray env (hcount.trans_le hslots)] at hlist
    exact hlist
  -- of two hashes one differs
  have htwo : 2 ≤ level.card → ∃ k < 2, (limboArray env data).elem k ≠ x := by
    intro htwo
    by_cases hzero : (limboArray env data).elem 0 = x
    · refine ⟨1, by norm_num, fun hone => ?_⟩
      have heq := hzero.trans hone.symm
      exact absurd (Arr.elem_inj hnodup (by omega) (by omega) heq) (by norm_num)
    · exact ⟨0, by norm_num, hzero⟩
  have hone : level.card = 1 → (limboArray env data).length = 1 := fun h =>
    UInt32.toNat_inj.mp (hcount.trans h)
  refine (arrayAddReads_inside_iff rfl).trans ?_
  show env.limboMaxLevelSize.toNat ≤ _ ∨ (∃ k < env.limboMaxLevelSize.toNat, _) ∨
    (∀ k < env.limboMaxLevelSize.toNat, _) ∧ _ ↔ _
  rw [reaches_all_iff]
  simp only [Arr.reaches_iff (rfl : (limboArray env data).usize = 32)]
  have hle := levelSlots_le env
  constructor
  · rintro (hfull | ⟨k, -, ⟨hslot, hint⟩, hne⟩ | ⟨hsmall, -⟩)
    · by_cases hmany : 2 ≤ level.card
      · obtain ⟨k, hk, hne⟩ := htwo hmany
        exact .inr ⟨k, by omega, by omega, hne⟩
      · rw [capacity_one (hone (by omega))] at hfull
        exact .inl (hfull.trans (by show 32 + 1 ≤ _; norm_num))
    · exact .inr ⟨k, hint, hslot, hne⟩
    · exact .inl hsmall
  · rintro (hsmall | ⟨k, hint, hslot, hne⟩)
    · have hall := Nat.mod_eq_of_lt (show env.limboMaxLevelSize.toNat < 2 ^ 27 by omega)
      by_cases hdiff : ∃ k < env.limboMaxLevelSize.toNat, (limboArray env data).elem k ≠ x
      · obtain ⟨k, hk, hne⟩ := hdiff
        exact .inr (.inl ⟨k, hk, ⟨by rwa [levelSlots, hall], by omega⟩, hne⟩)
      · -- there is one hash, and if there is room, it is room behind it
        have hcard : level.card = 1 := by
          by_contra hmany
          obtain ⟨k, hk, hne⟩ := htwo (by omega)
          exact hdiff ⟨k, by omega, hne⟩
        rw [capacity_one (hone hcard), hone hcard]
        by_cases hfull : env.limboMaxLevelSize.toNat ≤ 33
        · exact .inl hfull
        · refine .inr (.inr ⟨hsmall, ?_⟩)
          show 32 + 32 ≤ 32 * levelSlots env
          rw [levelSlots, hall]
          omega
    · exact .inr (.inl ⟨k, by omega, ⟨hslot, hint⟩, hne⟩)

/-- Deletion from a level of at most one hash. -/
theorem limboArray_del_inside_iff (hone : level.card ≤ 1) :
    StaysInside sizeSha256 (levelSlots env) (arrayDelReads (limboArray env data) x) ↔
      env.limboMaxLevelSize.toNat ≤ 2 ^ 26 ∧
      (limboArray env data).differing x (limboArray env data).size ≤
        (limboArray env data).length.toNat + 1 := by
  have hlength := (limboArray_length env hlevel).trans_le hone
  rw [← reaches_all_iff env data]
  exact arrayDelReads_inside_iff rfl hlength (levelSlots_le env)

end Inside

/-! ## One call -/

/-- The record that a call puts over `old`. -/
def LimboCall.record (call : LimboCall) (old : Option Bytes) : Bytes :=
  match call with
  | .add buffer _ =>
      limboRecord env (fun arr x => (arrayAdd arr x).2) buffer (call.hash env) old
  | .del buffer _ => limboRecord env arrayDel buffer (call.hash env) old

theorem LimboCall.run_limbo (dbs : Dbs) (call : LimboCall) :
    (call.run env dbs).limbo = dbs.limbo.insert (hostBytes32 env.host (call.height env))
      (call.record env (dbs.limbo.lookup (hostBytes32 env.host (call.height env)))) := by
  cases call with
  | add buffer block =>
      exact congrArg Dbs.limbo (dataLimboEdit_passed env _ buffer dbs block)
  | del buffer block =>
      exact congrArg Dbs.limbo (dataLimboEdit_passed env _ buffer dbs block)

theorem limboRun_snoc (dbs : Dbs) (before : List LimboCall) (call : LimboCall) :
    limboRun env dbs (before ++ [call]) = call.run env (limboRun env dbs before) := by
  rw [limboRun, List.foldl_append]
  rfl

theorem levelSet_snoc (h : UInt32) (before : List LimboCall) (call : LimboCall) :
    levelSet env h (before ++ [call]) =
      if call.height env = h then call.update env (levelSet env h before)
      else levelSet env h before := by
  rw [levelSet, List.foldl_append]
  rfl

theorem limboRun_other (dbs : Dbs) (before : List LimboCall) (call : LimboCall) {h : UInt32}
    (hne : h ≠ call.height env) :
    (limboRun env dbs (before ++ [call])).limbo.lookup (hostBytes32 env.host h) =
      (limboRun env dbs before).limbo.lookup (hostBytes32 env.host h) := by
  rw [limboRun_snoc, LimboCall.run_limbo]
  exact AList.lookup_insert_ne fun heq => hne (hostBytes32_injective _ heq)

theorem limboRun_own (dbs : Dbs) (before : List LimboCall) (call : LimboCall) :
    (limboRun env dbs (before ++ [call])).limbo.lookup
        (hostBytes32 env.host (call.height env)) =
      some (call.record env ((limboRun env dbs before).limbo.lookup
        (hostBytes32 env.host (call.height env)))) := by
  rw [limboRun_snoc, LimboCall.run_limbo, AList.lookup_insert]

theorem limboRecord_length_eq {edit : Arr → Bytes → Arr} {buffer : Mem} {x : Bytes}
    {old : Option Bytes} (h : ∀ r, old = some r → r.length = limboBufferSize env) :
    (limboRecord env edit buffer x old).length = limboBufferSize env := by
  unfold limboRecord
  rw [Mem.slice_length]
  cases old with
  | none => rfl
  | some r =>
      dsimp only
      rw [h r rfl]
      split <;> rfl

/-- A level without a record is one that no call was about. -/
theorem limboRun_lookup (dbs : Dbs) (h : UInt32) (before : List LimboCall) :
    ((∀ c ∈ before, c.height env ≠ h) ∧
      (limboRun env dbs before).limbo.lookup (hostBytes32 env.host h) = none ∧
      levelSet env h before = ∅) ∨
    ((¬ ∀ c ∈ before, c.height env ≠ h) ∧
      ∃ r, (limboRun env dbs before).limbo.lookup (hostBytes32 env.host h) = some r ∧
        r.length = limboBufferSize env) := by
  induction before using List.reverseRecOn with
  | nil => exact .inl ⟨fun c hc => absurd hc List.not_mem_nil, rfl, rfl⟩
  | append_singleton before call ih =>
      by_cases hown : h = call.height env
      · subst hown
        refine .inr ⟨fun hall => hall call (by simp) rfl, _, limboRun_own env dbs before call, ?_⟩
        have hold : ∀ r, (limboRun env dbs before).limbo.lookup
            (hostBytes32 env.host (call.height env)) = some r →
            r.length = limboBufferSize env := by
          intro r hr
          rcases ih with ⟨_, hnone, _⟩ | ⟨_, r', hsome, hlen⟩
          · rw [hnone] at hr
            cases hr
          · rw [hsome] at hr
            cases hr
            exact hlen
        cases call with
        | add buffer block =>
            rw [LimboCall.record]
            exact limboRecord_length_eq env hold
        | del buffer block =>
            rw [LimboCall.record]
            exact limboRecord_length_eq env hold
      · have hall : (∀ c ∈ before ++ [call], c.height env ≠ h) ↔
            ∀ c ∈ before, c.height env ≠ h := by
          constructor
          · intro hall c hc
            exact hall c (List.mem_append_left _ hc)
          · intro hall c hc
            rcases List.mem_append.mp hc with hc | hc
            · exact hall c hc
            · rw [List.mem_singleton.mp hc]
              exact Ne.symm hown
        rw [hall, limboRun_other env dbs before call hown, levelSet_snoc,
          if_neg (Ne.symm hown)]
        exact ih

/-- The record that the first call about a level puts there. -/
theorem LimboCall.first_iff (call : LimboCall) :
    ListsExactly env (call.record env none) (call.update env ∅) ↔
      match call with
      | .add buffer _ =>
          recordHashes env (buffer.slice 0 (limboBufferSize env)) = [call.hash env]
      | .del buffer _ => btoui env.host buffer = 0 := by
  cases call with
  | add buffer block =>
      have hrecord := limboRecord_add_empty env buffer
        (LimboCall.hash env (.add buffer block)) (.inl (rfl : (none : Option Bytes) = none))
      rw [LimboCall.record, LimboCall.update, hrecord, insert_empty_eq, listsExactly_singleton]
  | del buffer block =>
      have hrecord : limboRecord env arrayDel buffer (LimboCall.hash env (.del buffer block)) none =
          delRecord env buffer (LimboCall.hash env (.del buffer block)) := rfl
      rw [LimboCall.record, LimboCall.update, hrecord, Finset.erase_empty, listsExactly_empty,
        delRecord_count]

/-- The record that a later call puts over a record `r`. -/
theorem LimboCall.later_iff (call : LimboCall) {r : Bytes} {level : Finset Bytes}
    (hlen : r.length = limboBufferSize env) (hlevel : ListsExactly env r level)
    (hmax : level.card ≤ levelSlots env) :
    ListsExactly env (call.record env (some r)) (call.update env level) ↔
      match call with
      | .add _ _ => call.hash env ∈ level
      | .del _ _ => call.hash env ∉ level ∧ level.card ≤ 1 := by
  have hpos : r.length ≠ 0 := by
    have := four_le_limboBufferSize env
    omega
  cases call with
  | add buffer block =>
      have hrecord := limboRecord_add_kept env buffer (LimboCall.hash env (.add buffer block))
        (fun hnil => hpos (congrArg List.length hnil)) (Nat.le_of_eq hlen)
      rw [LimboCall.record, LimboCall.update, hrecord]
      constructor
      · intro hadded
        rw [← Finset.insert_eq_self]
        exact hadded.2.symm.trans hlevel.2
      · intro hmem
        rw [Finset.insert_eq_of_mem hmem]
        exact hlevel
  | del buffer block =>
      have hrecord : limboRecord env arrayDel buffer (LimboCall.hash env (.del buffer block))
          (some r) = delRecord env (buffer.load r) (LimboCall.hash env (.del buffer block)) := by
        simp only [limboRecord, if_pos (Nat.le_of_eq hlen), if_neg hpos]
        rw [hlen]
        rfl
      rw [LimboCall.record, LimboCall.update, hrecord]
      refine listsExactly_delRecord env ?_ hmax _
      rw [Mem.slice_load buffer hlen]
      exact hlevel

theorem LimboCall.hash_length (call : LimboCall) : (call.hash env).length = sizeSha256 :=
  blockComputeHash_length ..

theorem levelSet_length (h : UInt32) (before : List LimboCall) :
    ∀ y ∈ levelSet env h before, y.length = sizeSha256 := by
  induction before using List.reverseRecOn with
  | nil => exact fun y hy => absurd hy (Finset.notMem_empty y)
  | append_singleton before call ih =>
      intro y hy
      rw [levelSet_snoc] at hy
      split at hy
      · cases call with
        | add buffer block =>
            rcases Finset.mem_insert.mp hy with rfl | hy
            · exact LimboCall.hash_length env _
            · exact ih y hy
        | del buffer block => exact ih y (Finset.mem_of_mem_erase hy)
      · exact ih y hy

/-- **One call.** Levels that are the sets they should be stay so exactly if the call
fits. -/
theorem LimboCall.fitsLevel_iff (dbs : Dbs) (before : List LimboCall) (call : LimboCall)
    (hgood : ∀ h, LevelIs env (limboRun env dbs before) h (levelSet env h before)) :
    (∀ h, LevelIs env (limboRun env dbs (before ++ [call])) h
      (levelSet env h (before ++ [call]))) ↔ call.FitsLevel env before := by
  -- only the level of the call itself is at stake
  have hown : (∀ h, LevelIs env (limboRun env dbs (before ++ [call])) h
      (levelSet env h (before ++ [call]))) ↔
      ListsExactly env (call.record env ((limboRun env dbs before).limbo.lookup
        (hostBytes32 env.host (call.height env))))
        (call.update env (levelSet env (call.height env) before)) := by
    constructor
    · intro hall
      have hlevel := hall (call.height env)
      rw [LevelIs, limboRun_own, levelSet_snoc, if_pos rfl] at hlevel
      exact hlevel
    · intro hlevel h
      by_cases hh : h = call.height env
      · subst hh
        rw [LevelIs, limboRun_own, levelSet_snoc, if_pos rfl]
        exact hlevel
      · rw [LevelIs, limboRun_other env dbs before call hh, levelSet_snoc, if_neg (Ne.symm hh)]
        exact hgood h
  rw [hown]
  have hlevel := hgood (call.height env)
  rw [LevelIs] at hlevel
  rcases limboRun_lookup env dbs (call.height env) before with
    ⟨hfirst, hnone, hempty⟩ | ⟨hlater, r, hsome, hlen⟩
  · have hfirst' : call.first env before := hfirst
    rw [hnone, hempty, LimboCall.first_iff]
    cases call <;> simp [LimboCall.FitsLevel, hfirst']
  · have hlater' : ¬ call.first env before := hlater
    rw [hsome] at hlevel ⊢
    have hmax := listsExactly_card_le env hlevel hlen (levelSet_length env _ before)
    rw [LimboCall.later_iff env call hlen hlevel hmax]
    cases call <;> simp [LimboCall.FitsLevel, hlater']

/-- What the call finds in its buffer lists the level, or for the first addition what it
is to be. -/
theorem LimboCall.data_lists (dbs : Dbs) (before : List LimboCall) (call : LimboCall)
    (hgood : ∀ h, LevelIs env (limboRun env dbs before) h (levelSet env h before))
    (hfits : call.FitsLevel env before) :
    ∃ level, ListsExactly env
        ((call.data env (limboRun env dbs before)).slice 0 (limboBufferSize env)) level ∧
      (∀ y ∈ level, y.length = sizeSha256) ∧
      match call with
      | .add _ _ => call.hash env ∈ level
      | .del _ _ => level.card ≤ 1 := by
  have hlevel := hgood (call.height env)
  have hdata := dbGet_passed_snd (limboRun env dbs before).limbo
    (uintMem env.host (call.height env)) call.buffer 4 (limboBufferSize env)
  rw [uintMem_slice] at hdata
  rw [LevelIs] at hlevel
  rcases limboRun_lookup env dbs (call.height env) before with
    ⟨hfirst, hnone, -⟩ | ⟨hlater, r, hsome, hlen⟩
  · have hbuffer : call.data env (limboRun env dbs before) = call.buffer := by
      rw [LimboCall.data, hdata, hnone]
      rfl
    rw [hbuffer]
    have hfirst' : call.first env before := hfirst
    cases call with
    | add buffer block =>
        refine ⟨{LimboCall.hash env (.add buffer block)}, ?_, ?_, Finset.mem_singleton_self _⟩
        · exact (listsExactly_singleton env).mpr (hfits.resolve_right fun h => h.1 hfirst').2
        · intro y hy
          rw [Finset.mem_singleton.mp hy]
          exact LimboCall.hash_length env _
    | del buffer block =>
        refine ⟨∅, ?_, fun y hy => absurd hy (Finset.notMem_empty y), Nat.zero_le 1⟩
        rw [listsExactly_empty, btoui_ofBytes_slice env.host _ (four_le_limboBufferSize env)]
        exact (hfits.resolve_right fun h => h.1 hfirst').2
  · rw [hsome] at hlevel hdata
    have hread : (call.data env (limboRun env dbs before)).slice 0 (limboBufferSize env) = r := by
      rw [LimboCall.data, hdata]
      dsimp only
      rw [if_pos (Nat.le_of_eq hlen), Mem.slice_load call.buffer hlen]
    rw [hread]
    have hlater' : ¬ call.first env before := hlater
    refine ⟨_, hlevel, levelSet_length env _ before, ?_⟩
    cases call with
    | add buffer block => exact (hfits.resolve_left fun h => hlater' h.1).2
    | del buffer block => exact (hfits.resolve_left fun h => hlater' h.1).2.2

/-- Such a call stays in its buffer exactly if it fits there. -/
theorem LimboCall.fitsBuffer_iff (dbs : Dbs) (before : List LimboCall) (call : LimboCall)
    (hgood : ∀ h, LevelIs env (limboRun env dbs before) h (levelSet env h before))
    (hfits : call.FitsLevel env before) :
    call.StaysInBuffer env (limboRun env dbs before) ↔
      call.FitsBuffer env (limboRun env dbs before) := by
  obtain ⟨level, hlevel, hhash, hcall⟩ := call.data_lists env dbs before hgood hfits
  cases call with
  | add buffer block => exact limboArray_add_inside_iff env hlevel hhash hcall
  | del buffer block => exact limboArray_del_inside_iff env hlevel hcall

/-- **Limbo levels are sets.** All calls return, and the levels are after every call what
they should be, exactly if every call fits. -/
theorem limbo_isSets_iff (env : Env .passed) (dbs : Dbs) (calls : List LimboCall) :
    LimboIsSets env dbs calls ↔
      ∀ before call, before ++ [call] <+: calls → call.Fits env dbs before := by
  have hsteps := prefixes_iff
    (fun before => (∀ h, LevelIs env (limboRun env dbs before) h (levelSet env h before)) ∧
      ∀ earlier call, before = earlier ++ [call] →
        call.StaysInBuffer env (limboRun env dbs earlier))
    (fun before call => call.Fits env dbs before) calls
    ⟨fun h => rfl, fun earlier call h => absurd h.symm (List.append_ne_nil_of_right_ne_nil _
      (List.cons_ne_nil call []))⟩ (by
    intro before call _ hbefore
    have hgood := (hbefore before (List.prefix_refl before)).1
    have hlast : (∀ earlier c, before ++ [call] = earlier ++ [c] →
        c.StaysInBuffer env (limboRun env dbs earlier)) ↔
          call.StaysInBuffer env (limboRun env dbs before) := by
      constructor
      · exact fun h => h before call rfl
      · intro h earlier c heq
        obtain ⟨rfl, rfl⟩ := List.append_singleton_inj.mp heq
        exact h
    rw [LimboCall.fitsLevel_iff env dbs before call hgood, hlast, LimboCall.Fits]
    exact and_congr_right (LimboCall.fitsBuffer_iff env dbs before call hgood))
  rw [← hsteps]
  constructor
  · rintro h before hpre
    refine ⟨h.level before hpre, ?_⟩
    rintro earlier call rfl
    exact h.inside earlier call hpre
  · intro h
    exact ⟨fun before hpre => (h before hpre).1,
      fun before call _ h hne => limboRun_other env dbs before call hne,
      fun before call hpre => (h _ hpre).2 before call rfl⟩

/-! ## One addition -/

theorem prefix_of_one {call : LimboCall} {before : List LimboCall} (h : before <+: [call]) :
    before = [call] ∨ before = [] :=
  (List.prefix_concat_iff.mp (show before <+: [] ++ [call] from h)).imp id List.prefix_nil.mp

theorem one_addition_fits_record (buffer block : Mem) :
    ∀ before, before <+: [LimboCall.add buffer block] → ∀ h,
      (levelSet sampleEnv h before).card ≤ sampleEnv.limboMaxLevelSize.toNat := by
  intro before hpre h
  rcases prefix_of_one hpre with rfl | rfl
  · show (levelSet sampleEnv h ([] ++ [LimboCall.add buffer block])).card ≤ 1
    rw [levelSet_snoc]
    split
    · exact Nat.le_of_eq (Finset.card_singleton _)
    · exact Nat.zero_le _
  · exact Nat.zero_le _

/-- Memory that already shows the record of `genesis` makes its addition come out
right. -/
theorem genesis_added_luckily :
    LimboIsSets sampleEnv emptyNode
      [.add (Mem.ofBytes ([1, 0, 0, 0] ++ genesisHash)) genesis] := by
  refine (limbo_isSets_iff sampleEnv emptyNode _).mpr ?_
  intro before call hpre
  rcases prefix_of_one hpre with hcall | hnil
  · obtain ⟨rfl, rfl⟩ : before = [] ∧ call = _ :=
      List.append_singleton_inj.mp (hcall.trans (List.nil_append _).symm)
    refine ⟨.inl ⟨fun c hc => absurd hc List.not_mem_nil, ?_⟩, .inl (by decide)⟩
    have hhash : LimboCall.hash sampleEnv
        (.add (Mem.ofBytes ([1, 0, 0, 0] ++ genesisHash)) genesis) = genesisHash := genesisHash_eq
    rw [hhash]
    decide
  · exact absurd hnil (by simp)

/-- With zeros in the buffer, the level of `genesis` is empty after its addition. -/
theorem genesis_not_added :
    (∀ before, before <+: [LimboCall.add (fun _ => 0) genesis] →
      ∀ h, (levelSet sampleEnv h before).card ≤ sampleEnv.limboMaxLevelSize.toNat) ∧
    ¬ LimboIsSets sampleEnv emptyNode [.add (fun _ => 0) genesis] := by
  refine ⟨one_addition_fits_record _ _, ?_⟩
  intro h
  have hlevel := h.level [.add (fun _ => 0) genesis] (List.prefix_refl _)
    (LimboCall.height sampleEnv (.add (fun _ => 0) genesis))
  have hown := limboRun_own sampleEnv emptyNode [] (.add (fun _ => 0) genesis)
  rw [List.nil_append] at hown
  rw [LevelIs, hown] at hlevel
  have hset := levelSet_snoc sampleEnv
    (LimboCall.height sampleEnv (.add (fun _ => 0) genesis)) [] (.add (fun _ => 0) genesis)
  rw [List.nil_append, if_pos rfl] at hset
  rw [hset] at hlevel
  exact absurd ((LimboCall.first_iff sampleEnv (.add (fun _ => 0) genesis)).mp hlevel) (by
    show ¬ recordHashes sampleEnv (Mem.slice (fun _ => 0) 0 36) = [_]
    rw [show recordHashes sampleEnv (Mem.slice (fun _ => 0) 0 36) = [] by decide]
    exact (List.cons_ne_nil _ _).symm)

end Freecoin
