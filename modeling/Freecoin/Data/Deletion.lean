import Freecoin.Data.Mempool

/-!
# data.c: deleting from the mempool

`data_mempool_del` closes the gap with the slot after the last one: `size` was
read before the decrement, so `txs[size]` is not the last entry. Here the
entries are told apart by their hashes, as in the other functions; that the
code compares the entry itself is the subject of `Data.Mempool`.
-/

namespace Freecoin

open Lib

/-- `data_mempool_del(dbs, hash)`, with entries compared by `view`. -/
def dataMempoolDelBy (view : MTx → Bytes) (mempool : Mempool) (hash : Bytes) :
    Except Fault (Option MTx × Mempool) := do
  let size := mempool.count
  match ← mempoolFind view mempool.txs hash size 0 with
  | none => return (none, mempool)
  | some i =>
      let txs := if 0 < size - 1 then Function.update mempool.txs i (mempool.txs size)
        else mempool.txs
      return (mempool.txs i, ⟨Function.update txs size none, size - 1⟩)

theorem dataMempoolDelBy_raw (p : Mempool) (hash : Bytes) :
    dataMempoolDelBy MTx.raw p hash = dataMempoolDel p hash := rfl

/-! ## Where the search stops -/

section Search

variable {view : MTx → Bytes} {txs : ℕ → Option MTx} {hash : Bytes}

/-- It passes over the entries that look different. -/
theorem mempoolFind_skip {n : ℕ} : ∀ (as : List MTx) (i : ℕ),
    (∀ j (h : j < as.length), txs (i + j) = some as[j]) → (∀ e ∈ as, view e ≠ hash) →
    mempoolFind view txs hash (as.length + n) i =
      mempoolFind view txs hash n (i + as.length) := by
  intro as
  induction as with
  | nil => intro i _ _; rw [List.length_nil, Nat.zero_add, Nat.add_zero]
  | cons e as ih =>
      intro i hslots hdiff
      obtain ⟨hne, hrest⟩ := List.forall_mem_cons.mp hdiff
      have hhead : txs i = some e := hslots 0 (Nat.succ_pos _)
      have htail : ∀ j (h : j < as.length), txs (i + 1 + j) = some as[j] := by
        intro j hj
        rw [Nat.add_assoc, Nat.add_comm 1]
        exact hslots (j + 1) (Nat.succ_lt_succ hj)
      rw [List.length_cons, Nat.succ_add, mempoolFind, hhead]
      dsimp only
      rw [if_neg hne, ih (i + 1) htail hrest, Nat.add_assoc, Nat.add_comm 1]

theorem Slots.find_absent {p : Mempool} {l : List MTx} (hp : Slots p l)
    (h : hash ∉ l.map view) : mempoolFind view p.txs hash p.count 0 = .ok none := by
  have hdiff : ∀ e ∈ l, view e ≠ hash := fun e he heq => h (List.mem_map.mpr ⟨e, he, heq⟩)
  have hslots : ∀ j (hj : j < l.length), p.txs (0 + j) = some l[j] := by
    intro j hj
    rw [Nat.zero_add]
    exact hp.slot j hj
  rw [hp.count]
  exact mempoolFind_skip (n := 0) l 0 hslots hdiff

theorem Slots.find_present {p : Mempool} {as bs : List MTx} {e : MTx}
    (hp : Slots p (as ++ e :: bs)) (hdiff : ∀ a ∈ as, view a ≠ hash) (he : view e = hash) :
    mempoolFind view p.txs hash p.count 0 = .ok (some as.length) := by
  have hslots : ∀ j (hj : j < as.length), p.txs (0 + j) = some as[j] := by
    intro j hj
    rw [Nat.zero_add, hp.slot j (by simp; omega), List.getElem_append_left hj]
  have hslot : p.txs as.length = some e := by
    rw [hp.slot as.length (by simp), List.getElem_append_right (Nat.le_refl _)]
    simp
  rw [hp.count, List.length_append, List.length_cons, mempoolFind_skip as 0 hslots hdiff,
    Nat.zero_add, mempoolFind, hslot]
  dsimp only
  rw [if_pos he]

end Search

/-! ## What is left -/

/-- The entry with the hash is returned and taken out, and the others stay, each in one
slot. -/
structure DeletesOne (p : Mempool) (l : List MTx) (x : Bytes) (found : Option MTx)
    (p' : Mempool) : Prop where
  returned : found = l.find? fun e => e.hash = x
  count : p'.count = if x ∈ l.map MTx.hash then p.count - 1 else p.count
  others : ∃ l', Slots p' l' ∧ l'.Perm (l.filter fun e => e.hash ≠ x)

/-- The mempool after the entry in slot `i` was taken out. -/
def closeGap (p : Mempool) (i : ℕ) : Mempool :=
  ⟨Function.update (if 0 < p.count - 1 then Function.update p.txs i (p.txs p.count) else p.txs)
    p.count none, p.count - 1⟩

/-- The slots in use keep their entries, but for the gap. -/
theorem closeGap_txs {p : Mempool} {i j : ℕ} (hj : j < p.count - 1) :
    (closeGap p i).txs j = if j = i then p.txs p.count else p.txs j := by
  have hpos : 0 < p.count - 1 := Nat.zero_lt_of_lt hj
  rw [closeGap, if_pos hpos]
  dsimp only
  rw [Function.update_of_ne (by omega), Function.update_apply]

/-- Taking the last entry out leaves the others where they are. -/
theorem Slots.closeGap_last {p : Mempool} {as : List MTx} {e : MTx} (hp : Slots p (as ++ [e])) :
    Slots (closeGap p as.length) as := by
  have hcount : p.count = as.length + 1 := by
    rw [hp.count, List.length_append]
    rfl
  constructor
  · rw [closeGap, hcount]
    rfl
  · intro i hi
    rw [closeGap_txs (by omega), if_neg (Nat.ne_of_lt hi), hp.slot i (by simp; omega),
      List.getElem_append_left hi]

/-- Taking another one out puts what the slot after the last one holds into the gap. -/
theorem Slots.closeGap_inner {p : Mempool} {as cs : List MTx} {e z w : MTx}
    (hp : Slots p (as ++ e :: (cs ++ [z]))) (hw : p.txs p.count = some w) :
    Slots (closeGap p as.length) (as ++ w :: cs) := by
  have hcount := hp.count
  simp only [List.length_append, List.length_cons, List.length_nil] at hcount
  constructor
  · rw [closeGap]
    simp only [List.length_append, List.length_cons]
    omega
  · intro i hi
    simp only [List.length_append, List.length_cons] at hi
    rw [closeGap_txs (by omega)]
    by_cases hgap : i = as.length
    · subst hgap
      rw [if_pos rfl, hw, List.getElem_append_right (Nat.le_refl _)]
      simp
    · rw [if_neg hgap, hp.slot i (by simp; omega)]
      grind

/-- The others are left if and only if the entry was the last, or the slot after the
last one holds the last entry too. -/
theorem Slots.others_left_iff {p : Mempool} {as bs : List MTx} {e : MTx}
    (hp : Slots p (as ++ e :: bs)) :
    (∃ l', Slots (closeGap p as.length) l' ∧ l'.Perm (as ++ bs)) ↔
      bs = [] ∨ p.txs p.count = bs.getLast? := by
  cases bs using List.reverseRecOn with
  | nil =>
      refine iff_of_true ⟨as, hp.closeGap_last, ?_⟩ (.inl rfl)
      rw [List.append_nil]
  | append_singleton cs z =>
      rw [List.getLast?_append_cons, List.getLast?_singleton]
      have hshuffle : ∀ w, (as ++ w :: cs).Perm (as ++ (cs ++ [w])) := fun w =>
        (List.perm_append_left_iff as).mpr (List.perm_append_singleton w cs).symm
      constructor
      · rintro ⟨l', hslots, hperm⟩
        right
        have hlength : l'.length = as.length + cs.length + 1 := by
          rw [hperm.length_eq]
          simp only [List.length_append, List.length_cons, List.length_nil]
          omega
        -- the gap is in use, so there is an entry behind the last one
        have hgap : p.txs p.count = some l'[as.length] := by
          have hcount := hslots.count
          rw [← hslots.slot as.length (by omega), closeGap_txs, if_pos rfl]
          rw [show p.count - 1 = (closeGap p as.length).count from rfl, hcount]
          omega
        have hl' : l' = as ++ l'[as.length] :: cs := hslots.unique (hp.closeGap_inner hgap)
        have hmoved : (as ++ (cs ++ [l'[as.length]])).Perm (as ++ (cs ++ [z])) :=
          (hshuffle _).symm.trans (hl' ▸ hperm)
        rw [List.perm_append_left_iff, List.perm_append_left_iff,
          List.singleton_perm_singleton] at hmoved
        rw [hgap, hmoved]
      · rintro (hnil | hlast)
        · exact absurd hnil (by simp)
        · exact ⟨_, hp.closeGap_inner hlast, hshuffle z⟩

/-! ## One hash, one entry -/

section Present

variable {as bs : List MTx} {e : MTx} (hnodup : ((as ++ e :: bs).map MTx.hash).Nodup)

include hnodup

theorem hash_ne_before {a : MTx} (ha : a ∈ as) : a.hash ≠ e.hash := by
  rw [List.map_append, List.map_cons] at hnodup
  exact (List.nodup_append.mp hnodup).2.2 _ (List.mem_map_of_mem ha) _ List.mem_cons_self

theorem hash_ne_after {b : MTx} (hb : b ∈ bs) : b.hash ≠ e.hash := by
  rw [List.map_append, List.map_cons] at hnodup
  intro heq
  have hcons := (List.nodup_append.mp hnodup).2.1
  exact (List.nodup_cons.mp hcons).1 (heq ▸ List.mem_map_of_mem hb)

theorem filter_others :
    ((as ++ e :: bs).filter fun e' => e'.hash ≠ e.hash) = as ++ bs := by
  rw [List.filter_append, List.filter_cons_of_neg (by simp),
    List.filter_eq_self.mpr fun a ha => decide_eq_true (hash_ne_before hnodup ha),
    List.filter_eq_self.mpr fun b hb => decide_eq_true (hash_ne_after hnodup hb)]

theorem find_entry : ((as ++ e :: bs).find? fun e' => e'.hash = e.hash) = some e := by
  rw [List.find?_append, List.find?_eq_none.mpr fun a ha => by
    rw [decide_eq_true_eq]
    exact hash_ne_before hnodup ha]
  simp

theorem dataMempoolDelBy_present {p : Mempool} (hp : Slots p (as ++ e :: bs)) :
    dataMempoolDelBy MTx.hash p e.hash = .ok (some e, closeGap p as.length) := by
  have hslot : p.txs as.length = some e := by
    rw [hp.slot as.length (by simp), List.getElem_append_right (Nat.le_refl _)]
    simp
  rw [dataMempoolDelBy, hp.find_present (fun a ha => hash_ne_before hnodup ha) rfl, ← hslot]
  rfl

/-- What `data_mempool_del` is to do with an entry that is there. -/
theorem deletesOne_present_iff {p : Mempool} :
    DeletesOne p (as ++ e :: bs) e.hash (some e) (closeGap p as.length) ↔
      ∃ l', Slots (closeGap p as.length) l' ∧ l'.Perm (as ++ bs) := by
  have hmem : e.hash ∈ (as ++ e :: bs).map MTx.hash :=
    List.mem_map_of_mem (List.mem_append_right _ List.mem_cons_self)
  constructor
  · intro h
    rw [← filter_others hnodup]
    exact h.others
  · intro h
    refine ⟨(find_entry hnodup).symm, ?_, ?_⟩
    · rw [if_pos hmem]
      rfl
    · rw [filter_others hnodup]
      exact h

end Present

/-- **Deletion from the mempool.** For entries with different hashes, the entry with the
given hash is returned and the others are left, each in one slot, if and only if
there is no such entry, or it is the last one, or the slot after the last one
holds the last entry too. -/
theorem dataMempoolDelBy_hash_iff {p : Mempool} {l : List MTx} (hp : Slots p l)
    (hnodup : (l.map MTx.hash).Nodup) (x : Bytes) :
    (∃ found p', dataMempoolDelBy MTx.hash p x = .ok (found, p') ∧ DeletesOne p l x found p') ↔
      x ∉ l.map MTx.hash ∨ l.getLast?.map MTx.hash = some x ∨ p.txs p.count = l.getLast? := by
  by_cases hx : x ∈ l.map MTx.hash
  · obtain ⟨e, he, rfl⟩ := List.mem_map.mp hx
    obtain ⟨as, bs, rfl⟩ := List.append_of_mem he
    have hproperty : (∃ found p', dataMempoolDelBy MTx.hash p e.hash = .ok (found, p') ∧
        DeletesOne p (as ++ e :: bs) e.hash found p') ↔
        DeletesOne p (as ++ e :: bs) e.hash (some e) (closeGap p as.length) := by
      rw [dataMempoolDelBy_present hnodup hp]
      constructor
      · rintro ⟨found, p', hresult, h⟩
        cases hresult
        exact h
      · intro h
        exact ⟨_, _, rfl, h⟩
    rw [hproperty, deletesOne_present_iff hnodup, hp.others_left_iff]
    cases bs using List.reverseRecOn with
    | nil =>
        refine iff_of_true (.inl rfl) (.inr (.inl ?_))
        rw [List.getLast?_append_cons, List.getLast?_singleton]
        rfl
    | append_singleton cs z =>
        have hz : z.hash ≠ e.hash := hash_ne_after hnodup (by simp)
        have hlast : (as ++ e :: (cs ++ [z])).getLast? = some z := by
          rw [← List.cons_append, ← List.append_assoc, List.getLast?_concat]
        rw [hlast, List.getLast?_concat]
        simp [hz]
  · refine iff_of_true ⟨none, p, ?_, ?_, ?_, l, hp, ?_⟩ (.inl hx)
    · rw [dataMempoolDelBy, hp.find_absent hx]
      rfl
    · symm
      apply List.find?_eq_none.mpr
      intro e he
      rw [decide_eq_true_eq]
      exact fun heq => hx (List.mem_map.mpr ⟨e, he, heq⟩)
    · rw [if_neg hx]
    · rw [List.filter_eq_self.mpr]
      intro e he
      exact decide_eq_true fun heq => hx (List.mem_map.mpr ⟨e, he, heq⟩)

/-- An entry whose hash is one byte over and over. -/
def byteEntry (v : UInt8) : MTx := ⟨List.replicate 32 v, [], 0, 0, []⟩

theorem byteEntries_nodup : ([byteEntry 1, byteEntry 2].map MTx.hash).Nodup := by decide

/-- Of two entries the second can be deleted. -/
theorem dataMempoolDelBy_hash_last :
    Slots (poolOf [byteEntry 1, byteEntry 2]) [byteEntry 1, byteEntry 2] ∧
    ([byteEntry 1, byteEntry 2].map MTx.hash).Nodup ∧
    ∃ found p', dataMempoolDelBy MTx.hash (poolOf [byteEntry 1, byteEntry 2])
        (byteEntry 2).hash = .ok (found, p') ∧
      DeletesOne (poolOf [byteEntry 1, byteEntry 2]) [byteEntry 1, byteEntry 2] (byteEntry 2).hash
        found p' :=
  ⟨slots_poolOf _, byteEntries_nodup,
    (dataMempoolDelBy_hash_iff (slots_poolOf _) byteEntries_nodup _).mpr (.inr (.inl rfl))⟩

/-- Deleting the first one loses the second: the slot in use is `NULL`. -/
theorem deletion_loses_last :
    dataMempoolGet (closeGap (poolOf [byteEntry 1, byteEntry 2]) 0) 0 = none ∧
    dataMempoolDelBy MTx.hash (poolOf [byteEntry 1, byteEntry 2]) (byteEntry 1).hash =
      .ok (some (byteEntry 1), closeGap (poolOf [byteEntry 1, byteEntry 2]) 0) ∧
    ¬ ∀ (p : Mempool) (l : List MTx) (x : Bytes), Slots p l → (l.map MTx.hash).Nodup →
      ∃ found p', dataMempoolDelBy MTx.hash p x = .ok (found, p') ∧
        DeletesOne p l x found p' := by
  have hdel : dataMempoolDelBy MTx.hash (poolOf [byteEntry 1, byteEntry 2]) (byteEntry 1).hash =
      .ok (some (byteEntry 1), closeGap (poolOf [byteEntry 1, byteEntry 2]) 0) :=
    @dataMempoolDelBy_present [] [byteEntry 2] (byteEntry 1) byteEntries_nodup _ (slots_poolOf _)
  refine ⟨rfl, hdel, ?_⟩
  intro hall
  obtain ⟨found, p', hresult, h⟩ := hall _ _ (byteEntry 1).hash
    (slots_poolOf [byteEntry 1, byteEntry 2]) byteEntries_nodup
  rw [hdel] at hresult
  cases hresult
  -- the entry that is left would be in slot 0
  obtain ⟨l', hslots, -⟩ := h.others
  have hlength : l'.length = 1 := hslots.count.symm
  have hslot := hslots.slot 0 (by omega)
  cases hslot

end Freecoin
