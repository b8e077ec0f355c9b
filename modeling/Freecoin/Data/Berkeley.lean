import Freecoin.Shared
import Mathlib.Data.List.AList
import Mathlib.Data.List.Sort

/-!
# data.c: the database layer

`new_dbt`, `new_pdbt`, `db_put`, `db_get` and `db_exists`, over databases that
are finite maps from key bytes to record bytes.

`new_dbt` records the length of its buffer in `ulen` and leaves `size` at
zero. Berkeley DB takes the length of a key, and of a record to be stored,
from `size`; the rest of the program is written as if the bytes handed to
`new_dbt` were the key and the record. Which of the two it is, is a parameter
`Bdb`: `Bdb.documented` is the library as documented, `Bdb.passed` the
library the program is written for, a map on the bytes passed to it.
-/

namespace Freecoin

open Lib

/-- The fields of a `DBT` that the program sets or the library reads. -/
structure Dbt : Type where
  data : Mem
  size : ℕ
  ulen : ℕ
  doff : ℕ
  dlen : ℕ
  isPartial : Bool

/-- `new_dbt(data, size)`. -/
def newDbt (data : Mem) (size : ℕ) : Dbt where
  data := data
  size := 0
  ulen := size
  doff := 0
  dlen := 0
  isPartial := false

/-- `new_pdbt(data, psize, pstart)`. -/
def newPdbt (data : Mem) (psize pstart : ℕ) : Dbt :=
  { newDbt data 0 with isPartial := true, doff := pstart, dlen := psize }

/-- How the library reads a `DBT`: the bytes of a key, the bytes of a record to
be stored, and whether `n` bytes can be delivered into the buffer. -/
structure Bdb : Type where
  keyBytes : Dbt → Bytes
  putBytes : Dbt → Bytes
  fits : Dbt → ℕ → Bool

/-- `size` is the length of what is passed in, `ulen` the room for what comes
back. -/
def Bdb.documented : Bdb where
  keyBytes := fun d => d.data.slice 0 d.size
  putBytes := fun d => d.data.slice 0 d.size
  fits := fun d n => n ≤ d.ulen

/-- The buffer given to `new_dbt` is what is passed in, unless a `db_get` has
since set `size`; a partial read has room for what it asks for. -/
def Bdb.passed : Bdb where
  keyBytes := fun d => d.data.slice 0 d.ulen
  putBytes := fun d => d.data.slice 0 (if d.size = 0 then d.ulen else d.size)
  fits := fun d n => d.isPartial || n ≤ d.ulen

/-- A database. -/
abbrev Db : Type := AList fun _ : Bytes => Bytes

/-- The bytes of a record that a `db_get` into `dat` asks for. -/
def Dbt.wanted (dat : Dbt) (record : Bytes) : Bytes :=
  if dat.isPartial then (record.drop dat.doff).take dat.dlen else record

/-- A record delivered into `dat`: whether it fits, and `dat` afterwards. The
length is reported in `size` either way. -/
def Dbt.deliver (B : Bdb) (dat : Dbt) (bs : Bytes) : Bool × Dbt :=
  if B.fits dat bs.length then (true, { dat with size := bs.length, data := dat.data.load bs })
  else (false, { dat with size := bs.length })

/-- `db_put(db, key, dat)`. -/
def dbPut (B : Bdb) (db : Db) (key dat : Dbt) : Db :=
  db.insert (B.keyBytes key) (B.putBytes dat)

/-- `db_get(db, key, dat)`: whether it returns 0, and `dat` afterwards. -/
def dbGet (B : Bdb) (db : Db) (key dat : Dbt) : Bool × Dbt :=
  match db.lookup (B.keyBytes key) with
  | none => (false, dat)
  | some record => dat.deliver B (dat.wanted record)

/-- `db_exists(db, key)`, whether it returns 0. -/
def dbExists (B : Bdb) (db : Db) (key : Dbt) : Bool :=
  (db.lookup (B.keyBytes key)).isSome

/-- What was put under a key is found under every key that reads the same. -/
theorem dbExists_dbPut {B : Bdb} {db : Db} {key key' dat : Dbt}
    (h : B.keyBytes key' = B.keyBytes key) : dbExists B (dbPut B db key dat) key' = true := by
  rw [dbExists, dbPut, h, AList.lookup_insert]
  rfl

/-! ## Cursors

A `DB_BTREE` without a comparison function of its own is ordered by key
bytes. -/

/-- The records in cursor order. -/
def dbRecords (db : Db) : List (Bytes × Bytes) :=
  (db.entries.map fun e => (e.1, e.2)).insertionSort fun a b => a.1 ≤ b.1

/-- The record that `DB_PREV` moves to from `pos`; a fresh cursor moves to the
last one. -/
def dbPrev (db : Db) (pos : Option Bytes) : Option (Bytes × Bytes) :=
  match pos with
  | none => (dbRecords db).getLast?
  | some key => ((dbRecords db).filter fun r => r.1 < key).getLast?

/-- How many records `DB_PREV` still has in front of it. -/
def dbRemaining (db : Db) (pos : Option Bytes) : ℕ :=
  match pos with
  | none => (dbRecords db).length
  | some key => ((dbRecords db).filter fun r => r.1 < key).length

theorem dbPrev_remaining {db : Db} {pos : Option Bytes} {r : Bytes × Bytes}
    (h : dbPrev db pos = some r) : dbRemaining db (some r.1) < dbRemaining db pos := by
  cases pos with
  | none =>
      have hmem : r ∈ dbRecords db := List.mem_of_getLast? h
      exact List.length_filter_lt_length_iff_exists.mpr ⟨r, hmem, by simp [List.lt_irrefl]⟩
  | some key =>
      have hmem := List.mem_of_getLast? h
      have hlt : r.1 < key := by simpa using (List.mem_filter.mp hmem).2
      -- what lies before `r` lies before `key`, and `r` itself does not
      have hsub : (dbRecords db).filter (fun x => x.1 < r.1) =
          ((dbRecords db).filter fun x => x.1 < key).filter fun x => x.1 < r.1 := by
        rw [List.filter_filter]
        apply List.filter_congr
        intro x _
        by_cases hx : x.1 < r.1
        · simp [hx, List.lt_trans hx hlt]
        · simp [hx]
      rw [dbRemaining, dbRemaining, hsub]
      exact List.length_filter_lt_length_iff_exists.mpr ⟨r, hmem, by simp [List.lt_irrefl]⟩

theorem mem_dbRecords {db : Db} {key r : Bytes} :
    (key, r) ∈ dbRecords db ↔ db.lookup key = some r := by
  have hmem : (key, r) ∈ db.entries.map (fun e => (e.1, e.2)) ↔ ⟨key, r⟩ ∈ db.entries := by
    constructor
    · intro h
      obtain ⟨e, he, heq⟩ := List.mem_map.mp h
      obtain ⟨rfl, rfl⟩ := Prod.mk.inj heq
      exact he
    · intro h
      exact List.mem_map.mpr ⟨_, h, rfl⟩
  rw [dbRecords, List.mem_insertionSort, hmem, ← AList.mem_lookup_iff, Option.mem_def]

theorem dbRecords_sorted (db : Db) : (dbRecords db).Pairwise fun a b => a.1 ≤ b.1 := by
  have : Std.Total (fun a b : Bytes × Bytes => a.1 ≤ b.1) := ⟨fun a b => List.le_total a.1 b.1⟩
  have : IsTrans (Bytes × Bytes) (fun a b => a.1 ≤ b.1) := ⟨fun a b c => List.le_trans⟩
  exact List.pairwise_insertionSort _ _

/-- `DB_PREV` from `pos` has yet to come to `key`. -/
def Ahead (pos : Option Bytes) (key : Bytes) : Prop := ∀ p, pos = some p → key < p

theorem getLast?_sorted {l : List (Bytes × Bytes)} (hl : l.Pairwise fun a b => a.1 ≤ b.1)
    {r : Bytes × Bytes} (h : l.getLast? = some r) : ∀ r' ∈ l, r'.1 ≤ r.1 := by
  obtain ⟨init, rfl⟩ := List.getLast?_eq_some_iff.mp h
  intro r' hr'
  rcases List.mem_append.mp hr' with hinit | hlast
  · exact (List.pairwise_append.mp hl).2.2 r' hinit r (List.mem_singleton_self r)
  · rw [List.mem_singleton.mp hlast]
    exact List.le_refl _

/-- **What `DB_PREV` does.** It moves to the largest key in front of it, or finds
that there is none. -/
theorem dbPrev_spec (db : Db) (pos : Option Bytes) :
    (dbPrev db pos = none ∧ ∀ key, Ahead pos key → db.lookup key = none) ∨
    ∃ key r, dbPrev db pos = some (key, r) ∧ db.lookup key = some r ∧ Ahead pos key ∧
      ∀ key', Ahead pos key' → (db.lookup key').isSome = true → key' ≤ key := by
  -- the records in front of the cursor
  obtain ⟨l, hprev, hsorted, hmem⟩ : ∃ l : List (Bytes × Bytes), dbPrev db pos = l.getLast? ∧
      (l.Pairwise fun a b => a.1 ≤ b.1) ∧
      ∀ key r, (key, r) ∈ l ↔ Ahead pos key ∧ db.lookup key = some r := by
    cases pos with
    | none =>
        refine ⟨dbRecords db, rfl, dbRecords_sorted db, ?_⟩
        intro key r
        rw [mem_dbRecords]
        exact ⟨fun h => ⟨(fun p hp => nomatch hp), h⟩, fun h => h.2⟩
    | some p =>
        refine ⟨(dbRecords db).filter fun r => r.1 < p, rfl, (dbRecords_sorted db).filter _, ?_⟩
        intro key r
        rw [List.mem_filter, mem_dbRecords, decide_eq_true_eq]
        constructor
        · rintro ⟨hlookup, hlt⟩
          exact ⟨(fun q hq => Option.some_inj.mp hq ▸ hlt), hlookup⟩
        · rintro ⟨hahead, hlookup⟩
          exact ⟨hlookup, hahead p rfl⟩
  rw [hprev]
  cases hlast : l.getLast? with
  | none =>
      refine .inl ⟨rfl, ?_⟩
      intro key hahead
      rw [List.getLast?_eq_none_iff] at hlast
      subst hlast
      cases hlookup : db.lookup key with
      | none => rfl
      | some r => exact absurd ((hmem key r).mpr ⟨hahead, hlookup⟩) List.not_mem_nil
  | some e =>
      obtain ⟨key, r⟩ := e
      obtain ⟨hahead, hlookup⟩ := (hmem key r).mp (List.mem_of_getLast? hlast)
      refine .inr ⟨key, r, rfl, hlookup, hahead, ?_⟩
      intro key' hahead' hsome
      obtain ⟨r', hr'⟩ := Option.isSome_iff_exists.mp hsome
      exact getLast?_sorted hsorted hlast (key', r') ((hmem key' r').mpr ⟨hahead', hr'⟩)

/-! ## Reads of a whole record -/

/-- A read under `Bdb.passed` either delivers a record that fits, or leaves the
buffer alone. -/
theorem dbGet_passed_cases (db : Db) (key dest : Mem) (klen n : ℕ) :
    (∃ r, db.lookup (key.slice 0 klen) = some r ∧ r.length ≤ n ∧
      dbGet .passed db (newDbt key klen) (newDbt dest n) =
        (true, { newDbt dest n with size := r.length, data := dest.load r })) ∨
    ((∀ r, db.lookup (key.slice 0 klen) = some r → n < r.length) ∧
      (dbGet .passed db (newDbt key klen) (newDbt dest n)).1 = false ∧
      (dbGet .passed db (newDbt key klen) (newDbt dest n)).2.data = dest) := by
  have hkey : Bdb.passed.keyBytes (newDbt key klen) = key.slice 0 klen := rfl
  rw [dbGet, hkey]
  cases hr : db.lookup (key.slice 0 klen) with
  | none => exact .inr ⟨fun r h => absurd h (by simp), rfl, rfl⟩
  | some r =>
      have hwant : (newDbt dest n).wanted r = r := rfl
      simp only [hwant, Dbt.deliver]
      by_cases hfit : r.length ≤ n
      · have hfits : Bdb.passed.fits (newDbt dest n) r.length = true := by
          simp [Bdb.passed, newDbt, hfit]
        rw [if_pos hfits]
        exact .inl ⟨r, rfl, hfit, rfl⟩
      · have hfits : ¬ Bdb.passed.fits (newDbt dest n) r.length = true := by
          simp [Bdb.passed, newDbt, hfit]
        rw [if_neg hfits]
        refine .inr ⟨?_, rfl, rfl⟩
        rintro r' ⟨⟩
        omega

/-- The `DBT` after such a read: the length of the record in `size`, and its bytes
if there is room for them. -/
theorem dbGet_passed_snd (db : Db) (key dest : Mem) (klen n : ℕ) :
    (dbGet .passed db (newDbt key klen) (newDbt dest n)).2 =
      match db.lookup (key.slice 0 klen) with
      | none => newDbt dest n
      | some r => { newDbt dest n with
          size := r.length
          data := if r.length ≤ n then dest.load r else dest } := by
  have hkey : Bdb.passed.keyBytes (newDbt key klen) = key.slice 0 klen := rfl
  rw [dbGet, hkey]
  cases db.lookup (key.slice 0 klen) with
  | none => rfl
  | some r =>
      have hfits : Bdb.passed.fits (newDbt dest n) r.length = decide (r.length ≤ n) := rfl
      have hwant : (newDbt dest n).wanted r = r := rfl
      dsimp only
      rw [hwant, Dbt.deliver, hfits]
      by_cases hfit : r.length ≤ n
      · simp only [hfit, decide_true, if_true]
        rfl
      · simp only [hfit, decide_false, if_false, Bool.false_eq_true]
        rfl

end Freecoin
