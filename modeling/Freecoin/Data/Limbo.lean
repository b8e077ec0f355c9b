import Freecoin.Data.View

/-!
# What filing in limbo does

`data_limbo_safe_add` never adds anything: past its two checks `array_add`
writes a hash over an equal one. A level that has a record keeps it. A level
that has none gets the buffer that was allocated to read it into, with
whatever count and hashes that memory shows.
-/

namespace Freecoin

open Lib

variable (env : Env .passed)

/-- The record that `data_limbo_safe_add` or `data_limbo_del` puts back over `old`. -/
def limboRecord (edit : Arr → Bytes → Arr) (buffer : Mem) (hash : Bytes) (old : Option Bytes) :
    Bytes :=
  let n := limboBufferSize env
  let data := match old with
    | some r => if r.length ≤ n then buffer.load r else buffer
    | none => buffer
  let size := match old with
    | some r => if r.length = 0 then n else r.length
    | none => n
  (data.splice 4 (edit (limboArray env data) hash).data).slice 0 size

theorem dataLimboEdit_passed (edit : Arr → Bytes → Arr) (buffer : Mem) (dbs : Dbs) (block : Mem) :
    dataLimboEdit env edit buffer dbs block =
      { dbs with
        limbo := dbs.limbo.insert (hostBytes32 env.host (blockGetHeight env.host block))
          (limboRecord env edit buffer (blockComputeHash env.digest block)
            (dbs.limbo.lookup (hostBytes32 env.host (blockGetHeight env.host block)))) } := by
  have hkey : Bdb.passed.keyBytes
      (newDbt (uintMem env.host (blockGetHeight env.host block)) 4) =
        hostBytes32 env.host (blockGetHeight env.host block) := uintMem_slice _ _
  have hdat := dbGet_passed_snd dbs.limbo (uintMem env.host (blockGetHeight env.host block)) buffer
    4 (limboBufferSize env)
  rw [uintMem_slice] at hdat
  unfold dataLimboEdit
  simp only [dbPut, hkey, hdat]
  cases dbs.limbo.lookup (hostBytes32 env.host (blockGetHeight env.host block)) with
  | none => rfl
  | some r => rfl

/-- The level of height `h` has no record, or an empty one. -/
def LevelEmpty (dbs : Dbs) (h : UInt32) : Prop :=
  dbs.limbo.lookup (hostBytes32 env.host h) = none ∨
    dbs.limbo.lookup (hostBytes32 env.host h) = some []

/-- Adding changes no byte of the buffer. -/
theorem splice_arrayAdd (buffer : Mem) (hash : Bytes) {n : ℕ} (hn : n ≤ limboBufferSize env) :
    (buffer.splice 4 (arrayAdd (limboArray env buffer) hash).2.data).slice 0 n =
      buffer.slice 0 n := by
  rw [Mem.slice_eq_iff]
  intro i hi
  rw [Nat.zero_add, Mem.splice]
  split
  · rfl
  · have hbound : i - 4 < 32 * (limboArray env buffer).size := by
      have hle := hn.trans (limboBufferSize_le env)
      show i - 4 < sizeSha256 * env.limboMaxLevelSize.toNat
      omega
    rw [arrayAdd_data _ _ rfl hbound]
    show buffer (4 + (i - 4)) = buffer i
    congr 1
    omega

theorem limboRecord_add_empty (buffer : Mem) (hash : Bytes) {old : Option Bytes}
    (h : old = none ∨ old = some []) :
    limboRecord env (fun arr x => (arrayAdd arr x).2) buffer hash old =
      buffer.slice 0 (limboBufferSize env) := by
  rcases h with rfl | rfl
  · exact splice_arrayAdd env buffer hash (Nat.le_refl _)
  · exact splice_arrayAdd env buffer hash (Nat.le_refl _)

theorem limboRecord_add_kept (buffer : Mem) (hash : Bytes) {r : Bytes} (hne : r ≠ [])
    (hfit : r.length ≤ limboBufferSize env) :
    limboRecord env (fun arr x => (arrayAdd arr x).2) buffer hash (some r) = r := by
  have hpos : r.length ≠ 0 := fun h => hne (List.eq_nil_of_length_eq_zero h)
  simp only [limboRecord, if_pos hfit, if_neg hpos]
  rw [splice_arrayAdd env (buffer.load r) hash hfit, Mem.slice_load buffer rfl]

theorem limboRecord_long (edit : Arr → Bytes → Arr) (buffer : Mem) (hash : Bytes) {r : Bytes}
    (hlong : limboBufferSize env < r.length) :
    (limboRecord env edit buffer hash (some r)).length = r.length := by
  have hpos : r.length ≠ 0 := by omega
  simp only [limboRecord, if_neg hpos, Mem.slice_length]

/-- What is behind the buffer of an addition, after `array_add` has run on what memory
held there. -/
def offeredLevel (buffer : Mem) (hash : Bytes) : Mem :=
  let arr := limboArray env buffer
  if arr.Accepts hash then buffer.write (4 + arr.offset arr.length) hash else buffer

/-- A record that is longer than the buffer is not read: what memory held is put back in
its length. -/
theorem limboRecord_add_long (buffer : Mem) (hash : Bytes) {r : Bytes}
    (hlong : limboBufferSize env < r.length) :
    limboRecord env (fun arr x => (arrayAdd arr x).2) buffer hash (some r) =
      (offeredLevel env buffer hash).slice 0 r.length := by
  have hpos : r.length ≠ 0 := Nat.ne_of_gt (Nat.zero_lt_of_lt hlong)
  have hdata : buffer.splice 4 (arrayAdd (limboArray env buffer) hash).2.data =
      offeredLevel env buffer hash := by
    rw [arrayAdd_eq, offeredLevel]
    split
    · exact Mem.splice_shift_write buffer 4 _ hash
    · exact Mem.splice_shift buffer 4
  simp only [limboRecord, if_neg (Nat.not_le.mpr hlong), if_neg hpos, hdata]

/-- What is put back is never empty. -/
theorem limboRecord_ne_nil (edit : Arr → Bytes → Arr) (buffer : Mem) (hash : Bytes)
    (old : Option Bytes) : limboRecord env edit buffer hash old ≠ [] := by
  have hbuffer : limboBufferSize env ≠ 0 :=
    Nat.ne_of_gt (Nat.lt_of_lt_of_le (by norm_num) (four_le_limboBufferSize env))
  apply List.ne_nil_of_length_pos
  unfold limboRecord
  rw [Mem.slice_length, Nat.pos_iff_ne_zero]
  cases old with
  | none => exact hbuffer
  | some r =>
      dsimp only
      split
      · exact hbuffer
      · next hlen => exact hlen

theorem not_lists_nil (x : Bytes) : ¬ Lists env [] x := by
  rintro ⟨i, hi, -⟩
  have hzero : btoui env.host (Mem.ofBytes []) = 0 := by
    cases env.host <;> decide
  rw [hzero] at hi
  exact absurd hi (Nat.not_lt_zero i)

/-- **Filing in limbo.** A hash is listed afterwards if it was listed before, or if
the level was empty and the uninitialised buffer lists it. -/
theorem limboLists_safeAdd_iff (buffer : Mem) (dbs : Dbs) (block : Mem) (h : UInt32) (x : Bytes) :
    LimboLists env (dataLimboSafeAdd env buffer dbs block) h x ↔
      LimboLists env dbs h x ∨
      (h = blockGetHeight env.host block ∧ LevelEmpty env dbs h ∧
        Lists env (buffer.slice 0 (limboBufferSize env)) x) := by
  rw [dataLimboSafeAdd, dataLimboEdit_passed]
  by_cases hh : h = blockGetHeight env.host block
  · subst hh
    generalize blockGetHeight env.host block = h
    rw [LimboLists, LimboLists, LevelEmpty]
    simp only [AList.lookup_insert, Option.some_inj, exists_eq_left']
    cases hold : dbs.limbo.lookup (hostBytes32 env.host h) with
    | none =>
        rw [limboRecord_add_empty env buffer _ (.inl rfl)]
        simp
    | some r =>
        by_cases hne : r = []
        · subst hne
          rw [limboRecord_add_empty env buffer _ (.inr rfl)]
          simp [not_lists_nil]
        · by_cases hfit : r.length ≤ limboBufferSize env
          · rw [limboRecord_add_kept env buffer _ hne hfit]
            simp [hne]
          · have hlong := limboRecord_long env (fun arr x => (arrayAdd arr x).2) buffer
              (blockComputeHash env.digest block) (Nat.not_le.mp hfit)
            simp [hne, hlong, hfit]
  · have hkey : hostBytes32 env.host h ≠ hostBytes32 env.host (blockGetHeight env.host block) :=
      fun heq => hh (hostBytes32_injective _ heq)
    rw [LimboLists, LimboLists]
    simp [AList.lookup_insert_ne hkey, hh]

/-! ## Deletion -/

/-- Memory shows `x` where an element of a limbo buffer would stand. -/
def Shows (m : Mem) (x : Bytes) : Prop := ∃ i, m.slice (4 + sizeSha256 * i) sizeSha256 = x

theorem btoui_ofBytes_slice (o : ByteOrder) (m : Mem) {n : ℕ} (hn : 4 ≤ n) :
    btoui o (Mem.ofBytes (m.slice 0 n)) = btoui o m := by
  apply btoui_congr
  intro i hi
  rw [Mem.ofBytes, Mem.load_apply, Mem.slice_getElem?, if_pos (by omega), Nat.zero_add]
  rfl

/-- The count in front of the hashes is out of reach of the array functions. -/
theorem btoui_splice (o : ByteOrder) (m p : Mem) : btoui o (m.splice 4 p) = btoui o m := by
  apply btoui_congr
  intro i hi
  exact if_pos hi

/-- A record that was cut from memory lists what the memory shows, as far as it
reaches. -/
theorem lists_slice_iff {m : Mem} {n : ℕ} (hn : 4 ≤ n) {x : Bytes} (hx : x.length = 32) :
    Lists env (m.slice 0 n) x ↔ ∃ i < (btoui env.host m).toNat,
      4 + sizeSha256 * i + sizeSha256 ≤ n ∧ m.slice (4 + sizeSha256 * i) sizeSha256 = x := by
  rw [Lists, btoui_ofBytes_slice env.host m hn]
  constructor
  · rintro ⟨i, hi, hlist⟩
    have hlen := congrArg List.length hlist
    simp only [List.length_take, List.length_drop, Mem.slice_length, hx, sizeSha256] at hlen
    have hin : 4 + sizeSha256 * i + sizeSha256 ≤ n := by
      simp only [sizeSha256]
      omega
    exact ⟨i, hi, hin, (Mem.drop_take_slice m hin).symm.trans hlist⟩
  · rintro ⟨i, hi, hin, hslice⟩
    exact ⟨i, hi, (Mem.drop_take_slice m hin).trans hslice⟩

/-- What a level lists after `array_del`, the memory showed below its count. -/
theorem lists_splice_arrayDel {data : Mem} {hash x : Bytes} {n : ℕ} (hn : 4 ≤ n)
    (hx : x.length = 32)
    (h : Lists env ((data.splice 4 (arrayDel (limboArray env data) hash).data).slice 0 n) x) :
    ∃ j < (btoui env.host data).toNat, data.slice (4 + sizeSha256 * j) sizeSha256 = x := by
  obtain ⟨i, hi, -, hslice⟩ := (lists_slice_iff env hn hx).mp h
  rw [btoui_splice] at hi
  obtain ⟨j, hj, helem⟩ := arrayDel_elem (limboArray env data) rfl hash hi
  refine ⟨j, hj, ?_⟩
  have husize : (arrayDel (limboArray env data) hash).usize = 32 :=
    (foldl_arrayDelStep_inv (limboArray env data) rfl hash _).usize
  rw [Arr.elem, husize] at helem
  have hold : (limboArray env data).elem j = data.slice (4 + sizeSha256 * j) sizeSha256 :=
    Mem.slice_shift data 4 (32 * j) 32
  rw [← hold, ← helem, ← hslice]
  show (arrayDel (limboArray env data) hash).data.slice (32 * i) 32 = Mem.slice _ (4 + 32 * i) 32
  rw [Mem.slice_eq_iff]
  intro k _
  rw [Mem.splice, if_neg (by omega)]
  congr 1
  omega

/-- **Deletion lists nothing new.** If the buffer does not show the hash and the
record fills it, a hash listed afterwards was listed before. -/
theorem limboRecord_del_lists {buffer : Mem} {hash x : Bytes} {old : Option Bytes}
    (hx : x.length = 32) (hshow : ¬ Shows buffer x)
    (hfull : ∀ r, old = some r → limboBufferSize env ≤ r.length)
    (hfit : (limboRecord env arrayDel buffer hash old).length ≤ limboBufferSize env)
    (h : Lists env (limboRecord env arrayDel buffer hash old) x) :
    ∃ r, old = some r ∧ r.length ≤ limboBufferSize env ∧ Lists env r x := by
  have hn := four_le_limboBufferSize env
  cases old with
  | none =>
      obtain ⟨j, _, hslice⟩ := lists_splice_arrayDel env hn hx h
      exact absurd ⟨j, hslice⟩ hshow
  | some r =>
      have hr := hfull r rfl
      have hlen : r.length = limboBufferSize env := by
        rcases Nat.eq_or_lt_of_le hr with heq | hlong
        · exact heq.symm
        · rw [limboRecord_long env arrayDel buffer hash hlong] at hfit
          omega
      refine ⟨r, rfl, Nat.le_of_eq hlen, ?_⟩
      have hpos : r.length ≠ 0 := by omega
      simp only [limboRecord, if_pos (Nat.le_of_eq hlen), if_neg hpos] at h
      obtain ⟨j, hj, hslice⟩ := lists_splice_arrayDel env (by omega) hx h
      rw [← Mem.slice_load buffer (rfl : r.length = r.length), lists_slice_iff env (by omega) hx]
      refine ⟨j, hj, ?_, hslice⟩
      -- an element past the record would be one that the buffer shows
      by_contra hpast
      refine hshow ⟨j, ?_⟩
      rw [← hslice, Mem.slice_eq_iff]
      intro k _
      refine (Mem.load_ge ?_).symm
      rw [limboBufferSize_eq, sizeSha256] at hlen
      simp only [sizeSha256] at hpast ⊢
      omega

end Freecoin
