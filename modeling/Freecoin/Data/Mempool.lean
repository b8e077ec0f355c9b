import Freecoin.Lib.Run
import Freecoin.Transactions

/-!
# data.c: the mempool

An array of pointers to transactions of which the first `count` are in use.
`data_mempool_add` allocates the memory of a new entry and hashes it without
copying the transaction into it, so an entry shows whatever that memory held.
`data_mempool_del` compares the hash it is given with the entry itself, not
with the hash the entry points at, and closes the gap with the slot after
the last one. Its `size` is the `count` of the other functions.
-/

namespace Freecoin

open Lib

/-- `Mempool`. A slot that was never written or was set to `NULL` is `none`. -/
structure Mempool : Type where
  txs : ℕ → Option MTx
  count : ℕ

/-- The mempool of `m_dbs_init`. -/
def mempoolInit : Mempool := ⟨fun _ => none, 0⟩

/-- The loop `for (i=0; i<count; i++)` that stops at the first entry whose
`view` is `hash`; `n` passes from slot `i` on. -/
def mempoolFind (view : MTx → Bytes) (txs : ℕ → Option MTx) (hash : Bytes) :
    ℕ → ℕ → Except Fault (Option ℕ)
  | 0, _ => .ok none
  | n + 1, i =>
      match txs i with
      | none => .error .badPointer
      | some tx => if view tx = hash then .ok (some i) else mempoolFind view txs hash n (i + 1)

/-- `data_mempool_get_size(dbs)`. -/
def dataMempoolGetSize (mempool : Mempool) : ℕ := mempool.count

/-- `data_mempool_get(dbs, index)`. -/
def dataMempoolGet (mempool : Mempool) (index : ℕ) : Option MTx :=
  if mempool.count ≤ index then none else mempool.txs index

/-- `data_mempool_exists(dbs, hash)`. -/
def dataMempoolExists (mempool : Mempool) (hash : Bytes) : Except Fault Bool :=
  (mempoolFind MTx.hash mempool.txs hash mempool.count 0).map Option.isSome

/-- The memory a new mempool entry is made of: what `malloc` returned for
`tx.data`, and the 32 bytes at the address of the entry. -/
structure EntryMem : Type where
  data : Mem
  raw : Bytes

/-- The entry that `data_mempool_add(dbs, tx)` builds. -/
def mempoolEntry (o : ByteOrder) (H : Digest) (u : EntryMem) (tx : Mem) : MTx where
  hash := txComputeHash o H u.data
  data := u.data.slice 0 (txGetSize o tx)
  size := txGetSize o tx
  max := txGetSize o tx
  raw := u.raw

/-- `data_mempool_add(dbs, tx)`. -/
def dataMempoolAdd (o : ByteOrder) (H : Digest) (u : EntryMem) (mempool : Mempool) (tx : Mem) :
    Except Fault Mempool := do
  let found ← dataMempoolExists mempool (txComputeHash o H tx)
  if found then return mempool
  return ⟨Function.update mempool.txs mempool.count (some (mempoolEntry o H u tx)),
    mempool.count + 1⟩

/-- `data_mempool_del(dbs, hash)`: the entry taken out, and the mempool. -/
def dataMempoolDel (mempool : Mempool) (hash : Bytes) : Except Fault (Option MTx × Mempool) := do
  let size := mempool.count
  match ← mempoolFind MTx.raw mempool.txs hash size 0 with
  | none => return (none, mempool)
  | some i =>
      let txs := if 0 < size - 1 then Function.update mempool.txs i (mempool.txs size)
        else mempool.txs
      return (mempool.txs i, ⟨Function.update txs size none, size - 1⟩)

/-! ## How a call can fail

The only way is to come across a slot that holds no entry. -/

section Fails

variable {P : Fault → Prop} (hP : P .badPointer)

include hP

theorem mempoolFind_fails (view : MTx → Bytes) (txs : ℕ → Option MTx) (hash : Bytes) :
    ∀ n i, FailsOnly P (mempoolFind view txs hash n i) := by
  intro n
  induction n with
  | zero => intro i; exact .ok none
  | succ n ih =>
      intro i
      rw [mempoolFind]
      split
      · exact .error hP
      · exact .ite (fun _ => .ok _) fun _ => ih (i + 1)

theorem dataMempoolExists_fails (p : Mempool) (hash : Bytes) :
    FailsOnly P (dataMempoolExists p hash) :=
  (mempoolFind_fails hP ..).map

theorem dataMempoolAdd_fails (o : ByteOrder) (H : Digest) (u : EntryMem) (p : Mempool) (tx : Mem) :
    FailsOnly P (dataMempoolAdd o H u p tx) := by
  refine (dataMempoolExists_fails hP p _).bind fun found => ?_
  exact .ite (fun _ => .ok _) fun _ => .ok _

theorem dataMempoolDel_fails (p : Mempool) (hash : Bytes) :
    FailsOnly P (dataMempoolDel p hash) := by
  refine (mempoolFind_fails hP ..).bind fun found => ?_
  cases found with
  | none => exact .ok _
  | some i => exact .ok _

end Fails

/-! ## What is in the mempool -/

/-- The first entry with the given hash. -/
def mempoolLookup (mempool : Mempool) (hash : Bytes) : Option MTx :=
  ((List.range mempool.count).filterMap mempool.txs).find? fun tx => tx.hash = hash

/-- A search that does not meet an empty slot finds what is there. -/
theorem mempoolFind_lookup {txs : ℕ → Option MTx} {hash : Bytes} :
    ∀ {n i : ℕ} {found : Option ℕ}, mempoolFind MTx.hash txs hash n i = .ok found →
      found.isSome = (((List.range' i n).filterMap txs).find? fun tx => tx.hash = hash).isSome := by
  intro n
  induction n with
  | zero =>
      intro i found h
      cases h
      rfl
  | succ n ih =>
      intro i found h
      rw [mempoolFind] at h
      rw [List.range'_succ]
      cases htx : txs i with
      | none => rw [htx] at h; cases h
      | some tx =>
          rw [htx] at h
          dsimp only at h
          rw [List.filterMap_cons_some htx, List.find?_cons]
          by_cases hhash : tx.hash = hash
          · rw [if_pos hhash] at h
            cases h
            simp [hhash]
          · rw [if_neg hhash] at h
            simpa [hhash] using ih h

theorem dataMempoolExists_lookup {p : Mempool} {hash : Bytes} {found : Bool}
    (h : dataMempoolExists p hash = .ok found) : found = (mempoolLookup p hash).isSome := by
  unfold dataMempoolExists at h
  cases hfind : mempoolFind MTx.hash p.txs hash p.count 0 with
  | error e => rw [hfind] at h; cases h
  | ok i =>
      rw [hfind] at h
      cases h
      rw [mempoolLookup, List.range_eq_range']
      exact mempoolFind_lookup hfind

/-- The mempool is the entries of `l`. -/
structure Slots (p : Mempool) (l : List MTx) : Prop where
  count : p.count = l.length
  slot : ∀ i (h : i < l.length), p.txs i = some l[i]

/-- The mempool that holds the entries of `l`. -/
def poolOf (l : List MTx) : Mempool := ⟨fun i => l[i]?, l.length⟩

theorem slots_poolOf (l : List MTx) : Slots (poolOf l) l :=
  ⟨rfl, fun _ hi => List.getElem?_eq_getElem hi⟩

theorem mempoolFind_slots {view : MTx → Bytes} {txs : ℕ → Option MTx} {hash : Bytes}
    (l : List MTx) :
    ∀ i, (∀ j (h : j < l.length), txs (i + j) = some l[j]) →
      ∃ r, mempoolFind view txs hash l.length i = .ok r ∧
        (r.isSome = true ↔ hash ∈ l.map view) := by
  induction l with
  | nil => intro i _; exact ⟨none, rfl, by simp⟩
  | cons e rest ih =>
      intro i hslots
      have hhead : txs i = some e := hslots 0 (by simp)
      rw [List.length_cons, mempoolFind, hhead]
      dsimp only
      by_cases hview : view e = hash
      · rw [if_pos hview]
        exact ⟨some i, rfl, by simp [hview]⟩
      · rw [if_neg hview]
        obtain ⟨r, hr, hiff⟩ := ih (i + 1) fun j hj => by
          have hslot := hslots (j + 1) (by simpa using hj)
          rwa [Nat.add_assoc, Nat.add_comm 1 j]
        refine ⟨r, hr, hiff.trans ?_⟩
        simp [Ne.symm hview]

theorem Slots.unique {p : Mempool} {l l' : List MTx} (h : Slots p l) (h' : Slots p l') :
    l = l' := by
  have hlen : l.length = l'.length := h.count.symm.trans h'.count
  refine List.ext_getElem hlen ?_
  intro i hi hi'
  exact Option.some_inj.mp ((h.slot i hi).symm.trans (h'.slot i hi'))

theorem Slots.find {p : Mempool} {l : List MTx} (hp : Slots p l) (view : MTx → Bytes)
    (hash : Bytes) : ∃ r, mempoolFind view p.txs hash p.count 0 = .ok r ∧
      (r.isSome = true ↔ hash ∈ l.map view) := by
  rw [hp.count]
  exact mempoolFind_slots l 0 fun j hj => by rw [Nat.zero_add]; exact hp.slot j hj

theorem Slots.get {p : Mempool} {l : List MTx} (hp : Slots p l) {i : ℕ} (hi : i < l.length) :
    dataMempoolGet p i = some l[i] := by
  rw [dataMempoolGet, hp.count, if_neg (Nat.not_le.mpr hi)]
  exact hp.slot i hi

/-! ## What the two updates can do -/

theorem dataMempoolAdd_cases {o : ByteOrder} {H : Digest} {u : EntryMem} {p p' : Mempool}
    {tx : Mem} (h : dataMempoolAdd o H u p tx = .ok p') :
    p' = p ∨ p' = ⟨Function.update p.txs p.count (some (mempoolEntry o H u tx)), p.count + 1⟩ := by
  unfold dataMempoolAdd at h
  cases hfound : dataMempoolExists p (txComputeHash o H tx) with
  | error e => rw [hfound] at h; cases h
  | ok found =>
      rw [hfound] at h
      cases found with
      | true => cases h; exact .inl rfl
      | false => cases h; exact .inr rfl

/-- A search that finds nothing has seen an entry in every slot. -/
theorem mempoolFind_none {view : MTx → Bytes} {txs : ℕ → Option MTx} {hash : Bytes} :
    ∀ {n i : ℕ}, mempoolFind view txs hash n i = .ok none →
      ∀ k, i ≤ k → k < i + n → txs k ≠ none := by
  intro n
  induction n with
  | zero =>
      intro i _ k hik hk
      omega
  | succ n ih =>
      intro i h k hik hk
      rw [mempoolFind] at h
      split at h
      · cases h
      · next tx hslot =>
          split at h
          · cases h
          · rcases Nat.eq_or_lt_of_le hik with rfl | hlt
            · exact Option.ne_none_iff_exists'.mpr ⟨tx, hslot⟩
            · exact ih h k hlt (by omega)

/-- A search that fails has come to an empty slot. -/
theorem mempoolFind_error {view : MTx → Bytes} {txs : ℕ → Option MTx} {hash : Bytes} {e : Fault} :
    ∀ {n i : ℕ}, mempoolFind view txs hash n i = .error e →
      ∃ k, i ≤ k ∧ k < i + n ∧ txs k = none := by
  intro n
  induction n with
  | zero =>
      intro i h
      cases h
  | succ n ih =>
      intro i h
      rw [mempoolFind] at h
      split at h
      · next hslot => exact ⟨i, Nat.le_refl i, by omega, hslot⟩
      · split at h
        · cases h
        · obtain ⟨k, hik, hk, hslot⟩ := ih h
          exact ⟨k, by omega, by omega, hslot⟩

/-- Below the count every slot holds an entry. -/
def Mempool.Filled (p : Mempool) : Prop := ∀ k < p.count, p.txs k ≠ none

theorem filled_of_absent {p : Mempool} {hash : Bytes} (h : dataMempoolExists p hash = .ok false) :
    p.Filled := by
  obtain ⟨found, hfind, hnone⟩ := ok_of_map h
  rw [Option.isSome_eq_false_iff, Option.isNone_iff_eq_none] at hnone
  subst hnone
  exact fun k hk => mempoolFind_none hfind k (Nat.zero_le k) (by omega)

theorem Mempool.Filled.exists_ne_error {p : Mempool} (h : p.Filled) (hash : Bytes) (e : Fault) :
    dataMempoolExists p hash ≠ .error e := by
  intro herror
  rw [dataMempoolExists] at herror
  cases hfind : mempoolFind MTx.hash p.txs hash p.count 0 with
  | ok found =>
      rw [hfind] at herror
      cases herror
  | error e' =>
      obtain ⟨k, -, hk, hslot⟩ := mempoolFind_error hfind
      exact h k (by omega) hslot

theorem Mempool.Filled.push {p : Mempool} (h : p.Filled) (tx : MTx) :
    Mempool.Filled ⟨Function.update p.txs p.count (some tx), p.count + 1⟩ := by
  intro k hk
  have hk : k < p.count + 1 := hk
  show Function.update p.txs p.count (some tx) k ≠ none
  by_cases hlast : k = p.count
  · rw [hlast, Function.update_self]
    exact Option.some_ne_none tx
  · rw [Function.update_of_ne hlast]
    exact h k (by omega)

theorem dataMempoolAdd_absent {o : ByteOrder} {H : Digest} (u : EntryMem) {p : Mempool} {tx : Mem}
    (h : dataMempoolExists p (txComputeHash o H tx) = .ok false) :
    dataMempoolAdd o H u p tx =
      .ok ⟨Function.update p.txs p.count (some (mempoolEntry o H u tx)), p.count + 1⟩ := by
  unfold dataMempoolAdd
  rw [h]
  rfl

theorem dataMempoolDel_cases {p p' : Mempool} {hash : Bytes} {tx : Option MTx}
    (h : dataMempoolDel p hash = .ok (tx, p')) :
    p' = p ∨ ∃ i txs, (txs = p.txs ∨ txs = Function.update p.txs i (p.txs p.count)) ∧
      p' = ⟨Function.update txs p.count none, p.count - 1⟩ := by
  rw [dataMempoolDel] at h
  cases hfind : mempoolFind MTx.raw p.txs hash p.count 0 with
  | error e => rw [hfind] at h; cases h
  | ok found =>
      rw [hfind] at h
      cases found with
      | none => cases h; exact .inl rfl
      | some i =>
          cases h
          refine .inr ⟨i, _, ?_, rfl⟩
          by_cases hsize : 0 < p.count - 1
          · rw [if_pos hsize]; exact .inr rfl
          · rw [if_neg hsize]; exact .inl rfl

/-- A slot after an addition holds what it held, or the new entry. -/
theorem dataMempoolAdd_slot {o : ByteOrder} {H : Digest} {u : EntryMem} {p p' : Mempool} {tx : Mem}
    (h : dataMempoolAdd o H u p tx = .ok p') {i : ℕ} {e : MTx} (he : p'.txs i = some e) :
    p.txs i = some e ∨ e = mempoolEntry o H u tx := by
  rcases dataMempoolAdd_cases h with rfl | rfl
  · exact .inl he
  · dsimp only at he
    rw [Function.update_apply] at he
    split at he
    · exact .inr (Option.some_inj.mp he).symm
    · exact .inl he

/-- After a deletion no slot holds an entry that no slot held before. -/
theorem dataMempoolDel_slot {p p' : Mempool} {hash : Bytes} {tx : Option MTx}
    (h : dataMempoolDel p hash = .ok (tx, p')) {i : ℕ} {e : MTx} (he : p'.txs i = some e) :
    ∃ j, p.txs j = some e := by
  rcases dataMempoolDel_cases h with rfl | ⟨k, txs, htxs, rfl⟩
  · exact ⟨i, he⟩
  · dsimp only at he
    rw [Function.update_apply] at he
    split at he
    · cases he
    · rcases htxs with rfl | rfl
      · exact ⟨i, he⟩
      · rw [Function.update_apply] at he
        split at he
        · exact ⟨_, he⟩
        · exact ⟨i, he⟩

/-- A transaction that is in the mempool is not added again, and any other one
adds an entry of whatever memory it is given. -/
theorem Slots.add {o : ByteOrder} {H : Digest} {p p' : Mempool} {l : List MTx} (hp : Slots p l)
    {u : EntryMem} {tx : Mem} (h : dataMempoolAdd o H u p tx = .ok p') :
    (txComputeHash o H tx ∈ l.map MTx.hash ∧ p' = p) ∨
      (txComputeHash o H tx ∉ l.map MTx.hash ∧
        Slots p' (l ++ [mempoolEntry o H u tx])) := by
  obtain ⟨r, hr, hiff⟩ := hp.find MTx.hash (txComputeHash o H tx)
  rw [dataMempoolAdd, dataMempoolExists, hr, Except.map] at h
  cases r with
  | some i =>
      cases h
      exact .inl ⟨hiff.mp rfl, rfl⟩
  | none =>
      cases h
      refine .inr ⟨fun hmem => absurd (hiff.mpr hmem) (by simp), ?_, ?_⟩
      · simp [hp.count]
      · intro i hi
        dsimp only
        rw [Function.update_apply, hp.count]
        by_cases hlast : i = l.length
        · subst hlast
          simp
        · have hlt : i < l.length := by simp at hi; omega
          rw [if_neg hlast, hp.slot i hlt, List.getElem_append_left hlt]

/-- A search answers with a slot it has looked at. -/
theorem mempoolFind_some {view : MTx → Bytes} {txs : ℕ → Option MTx} {hash : Bytes} {k : ℕ} :
    ∀ {n i : ℕ}, mempoolFind view txs hash n i = .ok (some k) →
      i ≤ k ∧ k < i + n := by
  intro n
  induction n with
  | zero => intro i h; cases h
  | succ n ih =>
      intro i h
      rw [mempoolFind] at h
      split at h
      · cases h
      · split at h
        · cases h
          exact ⟨Nat.le_refl _, by omega⟩
        · obtain ⟨hle, hlt⟩ := ih h
          exact ⟨by omega, by omega⟩

end Freecoin
