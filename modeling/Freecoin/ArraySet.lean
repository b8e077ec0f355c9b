import Freecoin.Array
import Freecoin.Lib.Run
import Freecoin.Lib.Traced

/-!
# array.c: arrays as bounded sets

What a caller has after `array_add` and `array_del`. Both get a copy of the
array, so it has the data they left behind and the length it had before. The
counters of the two loops are `int`, and so is the product of such a counter
with the size of an element: from `2 ^ 31` on it has no value.
-/

namespace Freecoin

open Lib

/-- The place of element `i` can be computed with an `int` counter. -/
def Arr.InInt (a : Arr) (i : ℕ) : Prop := i < 2 ^ 31 ∧ a.usize.toNat * i < 2 ^ 31

instance (a : Arr) (i : ℕ) : Decidable (a.InInt i) := inferInstanceAs (Decidable (_ ∧ _))

/-- The elements, in order. -/
def Arr.elems (a : Arr) : List Bytes := (List.range a.length.toNat).map a.elem

/-- What the caller's array is when the callee has turned its copy into `r`. -/
def Arr.after (a r : Arr) : Arr := { a with data := r.data }

theorem Arr.elems_length (a : Arr) : a.elems.length = a.length.toNat := by
  rw [Arr.elems, List.length_map, List.length_range]

theorem Arr.mem_elems {a : Arr} {x : Bytes} : x ∈ a.elems ↔ ∃ i < a.length.toNat, a.elem i = x := by
  rw [Arr.elems, List.mem_map]
  exact exists_congr fun i => and_congr_left fun _ => List.mem_range

/-- Different elements differ. -/
theorem Arr.elem_inj {a : Arr} (hnodup : a.elems.Nodup) {i j : ℕ} (hi : i < a.length.toNat)
    (hj : j < a.length.toNat) (h : a.elem i = a.elem j) : i = j :=
  List.inj_on_of_nodup_map hnodup (List.mem_range.mpr hi) (List.mem_range.mpr hj) h

/-- Elements of no bytes are all the same. -/
theorem Arr.usize_pos {a : Arr} (hnodup : a.elems.Nodup) (htwo : 2 ≤ a.length.toNat) :
    0 < a.usize.toNat := by
  rw [Nat.pos_iff_ne_zero]
  intro hzero
  have hsame : a.elem 0 = a.elem 1 := by
    rw [Arr.elem, Arr.elem, hzero]
  cases Arr.elem_inj hnodup (by omega) (by omega) hsame

/-- The elements of an array with the same shape. -/
theorem Arr.elems_congr {a b : Arr} (hlength : b.length = a.length)
    (helem : ∀ i < a.length.toNat, b.elem i = a.elem i) : b.elems = a.elems := by
  rw [Arr.elems, Arr.elems, hlength]
  apply List.map_congr_left
  intro i hi
  exact helem i (List.mem_range.mp hi)

/-! ## `array_add` -/

/-- The loop of `array_add`, `n` passes from `i` on: whether it returns. -/
def arrayAddScan (a : Arr) (data : Bytes) : ℕ → ℕ → Except IntOverflow Bool
  | 0, _ => .ok false
  | n + 1, i =>
      if ¬ a.InInt i then .error .position
      else if a.elem i != data then .ok true
      else arrayAddScan a data n (i + 1)

/-- `array_add(a, data)`, with its `int` counter. -/
def arrayAddInt (a : Arr) (data : Bytes) : Except IntOverflow (Bool × Arr) := do
  if a.size ≤ ((a.usize.toUInt32 + 1) * a.length).toNat then return (false, a)
  if ← arrayAddScan a data a.size 0 then return (false, a)
  return (true, { a with data := a.data.write (a.offset a.length) data, length := a.length + 1 })

theorem arrayAddScan_any {a : Arr} {data : Bytes} : ∀ {n i : ℕ} {b : Bool},
    arrayAddScan a data n i = .ok b → ((List.range' i n).any fun k => a.elem k != data) = b := by
  intro n
  induction n with
  | zero =>
      intro i b h
      cases h
      rfl
  | succ n ih =>
      intro i b h
      rw [arrayAddScan] at h
      rw [List.range'_succ, List.any_cons]
      split at h
      · cases h
      · split at h
        · next hne =>
            cases h
            rw [hne, Bool.true_or]
        · next heq =>
            rw [Bool.not_eq_true] at heq
            rw [heq, Bool.false_or]
            exact ih h

/-- Where no product leaves `int` it is `array_add`. -/
theorem arrayAddInt_ok {a : Arr} {data : Bytes} {out : Bool × Arr}
    (h : arrayAddInt a data = .ok out) : arrayAdd a data = out := by
  rw [arrayAddInt] at h
  rw [arrayAdd]
  split at h
  · next hfull =>
      cases h
      rw [if_pos hfull]
  · next hfull =>
      rw [if_neg hfull]
      cases hscan : arrayAddScan a data a.size 0 with
      | error e =>
          rw [hscan] at h
          cases h
      | ok b =>
          have hany := arrayAddScan_any hscan
          rw [← List.range_eq_range'] at hany
          rw [hscan] at h
          cases b with
          | true =>
              cases h
              rw [hany, if_pos rfl]
          | false =>
              cases h
              rw [hany, if_neg Bool.false_ne_true]

/-- The loop returns if and only if it gets to an element that differs. -/
theorem arrayAddScan_true_iff {a : Arr} {data : Bytes} : ∀ {n i : ℕ},
    arrayAddScan a data n i = .ok true ↔
      ∃ k, i ≤ k ∧ k < i + n ∧ a.InInt k ∧ a.elem k ≠ data := by
  intro n
  induction n with
  | zero =>
      intro i
      rw [arrayAddScan]
      refine iff_of_false ?_ ?_
      · intro h
        cases h
      · rintro ⟨k, hik, hk, -⟩
        omega
  | succ n ih =>
      intro i
      rw [arrayAddScan]
      by_cases hint : a.InInt i
      · rw [if_neg (not_not.mpr hint)]
        by_cases hne : a.elem i = data
        · rw [if_neg (by simp [hne]), ih]
          constructor
          · rintro ⟨k, hik, hk, hdiffers⟩
            exact ⟨k, by omega, by omega, hdiffers⟩
          · rintro ⟨k, hik, hk, hkint, hdiffers⟩
            have hki : k ≠ i := by
              rintro rfl
              exact hdiffers hne
            exact ⟨k, by omega, by omega, hkint, hdiffers⟩
        · rw [if_pos (by simp [hne])]
          exact iff_of_true rfl ⟨i, Nat.le_refl i, by omega, hint, hne⟩
      · rw [if_pos hint]
        refine iff_of_false ?_ ?_
        · intro h
          cases h
        · -- the products before are smaller
          rintro ⟨k, hik, -, ⟨hk, hoffset⟩, -⟩
          have hle : a.usize.toNat * i ≤ a.usize.toNat * k := Nat.mul_le_mul_left _ hik
          exact hint ⟨by omega, by omega⟩

/-- The array takes an element if and only if it has room for it and does not have it; then
the element is its last one, and otherwise nothing changes. -/
def InsertsOnce (a : Arr) (x : Bytes) : Prop :=
  ∃ accepted r, arrayAddInt a x = .ok (accepted, r) ∧
    (accepted = true ↔ a.length.toNat < a.size ∧ x ∉ a.elems) ∧
    (accepted = true → (a.after r).elems = a.elems ++ [x]) ∧
    (accepted = false → a.after r = a)

/-- The caller's array never gets longer. -/
theorem Arr.after_elems_ne (a r : Arr) (x : Bytes) : (a.after r).elems ≠ a.elems ++ [x] := by
  intro h
  have hlength := congrArg List.length h
  rw [List.length_append, Arr.elems_length, Arr.elems_length, List.length_singleton] at hlength
  exact Nat.ne_of_lt (Nat.lt_succ_self _) hlength

/-- So it is all right if and only if the element is refused, and rightly so. -/
theorem insertsOnce_iff (a : Arr) (x : Bytes) :
    InsertsOnce a x ↔ arrayAddInt a x = .ok (false, a) ∧
      ¬ (a.length.toNat < a.size ∧ x ∉ a.elems) := by
  constructor
  · rintro ⟨accepted, r, hresult, hiff, haccepted, -⟩
    cases accepted with
    | true => exact absurd (haccepted rfl) (a.after_elems_ne r x)
    | false =>
        refine ⟨?_, fun h => Bool.false_ne_true (hiff.mpr h)⟩
        -- a refusal returns before anything is written
        have hadd := arrayAddInt_ok hresult
        rw [arrayAdd] at hadd
        split at hadd
        · cases hadd
          exact hresult
        · split at hadd
          · cases hadd
            exact hresult
          · cases hadd
  · rintro ⟨hresult, hnot⟩
    refine ⟨false, a, hresult, ?_, ?_, fun _ => rfl⟩
    · exact iff_of_false Bool.false_ne_true hnot
    · intro h
      cases h

theorem arrayAddInt_refused_iff (a : Arr) (x : Bytes) :
    arrayAddInt a x = .ok (false, a) ↔
      a.size ≤ ((a.usize.toUInt32 + 1) * a.length).toNat ∨
        ∃ k < a.size, a.InInt k ∧ a.elem k ≠ x := by
  have hscan : arrayAddScan a x a.size 0 = .ok true ↔
      ∃ k < a.size, a.InInt k ∧ a.elem k ≠ x := by
    rw [arrayAddScan_true_iff, Nat.zero_add]
    exact exists_congr fun k => and_iff_right (Nat.zero_le k)
  rw [← hscan, arrayAddInt]
  by_cases hfull : a.size ≤ ((a.usize.toUInt32 + 1) * a.length).toNat
  · rw [if_pos hfull]
    exact iff_of_true rfl (.inl hfull)
  · rw [if_neg hfull, or_iff_right hfull]
    cases arrayAddScan a x a.size 0 with
    | error e =>
        refine iff_of_false ?_ ?_
        · intro h
          cases h
        · intro h
          cases h
    | ok b =>
        cases b with
        | true => exact iff_of_true rfl rfl
        | false =>
            refine iff_of_false ?_ ?_
            · intro h
              cases h
            · intro h
              cases h

theorem capacity_one {a : Arr} (h : a.length = 1) :
    ((a.usize.toUInt32 + 1) * a.length).toNat = a.usize.toNat + 1 := by
  have hlt := a.usize.toNat_lt
  rw [h, UInt32.mul_one, UInt32.toNat_add, UInt16.toNat_toUInt32,
    show (1 : UInt32).toNat = 1 from rfl]
  omega

/-- Two different elements cannot both be equal to the new one. -/
theorem arrayAddInt_refused_of_two {a : Arr} (hnodup : a.elems.Nodup)
    (hle : a.length.toNat ≤ a.size) (htwo : 2 ≤ a.length.toNat) (x : Bytes) :
    arrayAddInt a x = .ok (false, a) := by
  have hlt := a.usize.toNat_lt
  apply (arrayAddInt_refused_iff a x).mpr
  right
  by_cases hzero : a.elem 0 = x
  · refine ⟨1, by omega, ⟨by norm_num, by omega⟩, ?_⟩
    intro hone
    cases Arr.elem_inj hnodup (by omega) (by omega) (hzero.trans hone.symm)
  · exact ⟨0, by omega, ⟨by norm_num, by omega⟩, hzero⟩

/-- **`array_add` as a bounded insertion.** It is one if and only if the array is full, or
it has the element already and either another one too, or so little room that
the capacity test fails, or a slot behind it that differs from it. -/
theorem arrayAdd_insertsOnce_iff (a : Arr) (x : Bytes) (hle : a.length.toNat ≤ a.size)
    (hnodup : a.elems.Nodup) :
    InsertsOnce a x ↔ a.length.toNat = a.size ∨
      x ∈ a.elems ∧ (2 ≤ a.length.toNat ∨ a.size ≤ a.usize.toNat + 1 ∨
        ∃ k < a.size, a.InInt k ∧ a.elem k ≠ x) := by
  have hone : a.length.toNat = 1 → a.length = 1 := fun h => UInt32.toNat_inj.mp h
  rw [insertsOnce_iff]
  constructor
  · rintro ⟨hrefused, hnot⟩
    by_cases hfull : a.length.toNat = a.size
    · exact .inl hfull
    · have hmem : x ∈ a.elems := by
        by_contra hx
        exact hnot ⟨by omega, hx⟩
      refine .inr ⟨hmem, ?_⟩
      by_cases htwo : 2 ≤ a.length.toNat
      · exact .inl htwo
      · obtain ⟨i, hi, -⟩ := Arr.mem_elems.mp hmem
        right
        rw [← capacity_one (hone (by omega))]
        exact (arrayAddInt_refused_iff a x).mp hrefused
  · rintro (hfull | ⟨hmem, hcase⟩)
    · refine ⟨?_, fun h => Nat.ne_of_lt h.1 hfull⟩
      by_cases htwo : 2 ≤ a.length.toNat
      · exact arrayAddInt_refused_of_two hnodup hle htwo x
      · apply (arrayAddInt_refused_iff a x).mpr
        left
        rcases Nat.lt_or_ge 0 a.length.toNat with hpos | hzero
        · rw [capacity_one (hone (by omega))]
          omega
        · omega
    · refine ⟨?_, fun h => h.2 hmem⟩
      by_cases htwo : 2 ≤ a.length.toNat
      · exact arrayAddInt_refused_of_two hnodup hle htwo x
      · obtain ⟨i, hi, -⟩ := Arr.mem_elems.mp hmem
        apply (arrayAddInt_refused_iff a x).mpr
        rw [capacity_one (hone (by omega))]
        exact hcase.resolve_left htwo

/-- An array of one-byte elements. -/
def byteArray (bs : Bytes) (size : ℕ) : Arr :=
  arrayInit (Mem.ofBytes bs) 1 (UInt32.ofNat bs.length) size

/-- A full array refuses what it has. -/
theorem arrayAdd_insertsOnce_full :
    (byteArray [1, 2] 2).length.toNat ≤ (byteArray [1, 2] 2).size ∧
    (byteArray [1, 2] 2).elems.Nodup ∧ InsertsOnce (byteArray [1, 2] 2) [1] :=
  ⟨by decide, by decide, (arrayAdd_insertsOnce_iff _ _ (by decide) (by decide)).mpr
    (.inl (by decide))⟩

/-- An empty array with room for two refuses the first element, since it differs from what the
slots happen to hold. -/
theorem arrayAdd_refuses_first :
    arrayAddInt (byteArray [] 2) [5] = .ok (false, byteArray [] 2) ∧
    ¬ ∀ (a : Arr) (x : Bytes), x.length = a.usize.toNat → a.length.toNat ≤ a.size →
      a.elems.Nodup → InsertsOnce a x := by
  have hrefused : arrayAddInt (byteArray [] 2) [5] = .ok (false, byteArray [] 2) :=
    (arrayAddInt_refused_iff _ _).mpr (.inr ⟨0, by decide, by decide, by decide⟩)
  refine ⟨hrefused, ?_⟩
  intro hall
  have honce := hall (byteArray [] 2) [5] (by decide) (by decide) (by decide)
  exact ((insertsOnce_iff _ _).mp honce).2 ⟨by decide, by decide⟩

/-! ## `array_del` -/

/-- One pass of the loop of `array_del`, with the offsets of the elements it reads. -/
def arrayDelStepReads (data : Bytes) (a : Arr) (i : ℕ) : Traced ℕ IntOverflow Arr :=
  if ¬ a.InInt i then Traced.lift (.error .position)
  else do
    Traced.event (a.usize.toNat * i)
    if a.Moves data i then Traced.event (a.offset (a.length - 1))
    return arrayDelStep data a i

/-- `array_del(a, data)`, with its reads and its `int` counter. -/
def arrayDelReads (a : Arr) (data : Bytes) : Traced ℕ IntOverflow Arr :=
  (List.range a.size).foldlM (arrayDelStepReads data) a

section Passes

variable {x : Bytes} {a r : Arr} {i : ℕ}

theorem arrayDelStepReads_of_inInt (hint : a.InInt i) :
    (arrayDelStepReads x a i).result = .ok (arrayDelStep x a i) := by
  rw [arrayDelStepReads, if_neg (not_not.mpr hint)]
  split <;> rfl

theorem arrayDelStepReads_ok (h : (arrayDelStepReads x a i).result = .ok r) :
    arrayDelStep x a i = r ∧ (arrayDelStepReads x a i).events =
      a.usize.toNat * i :: if a.Moves x i then [a.offset (a.length - 1)] else [] := by
  rw [arrayDelStepReads] at h ⊢
  split at h
  · cases h
  · next hint =>
      rw [if_neg hint]
      split at h
      · next hmoves =>
          rw [if_pos hmoves, if_pos hmoves]
          cases h
          exact ⟨rfl, rfl⟩
      · next hmoves =>
          rw [if_neg hmoves, if_neg hmoves]
          cases h
          exact ⟨rfl, rfl⟩

/-- The first pass of a run, and the others. -/
theorem arrayDelRun_cons {is : List ℕ}
    (h : ((i :: is).foldlM (arrayDelStepReads x) a).result = .ok r) :
    (is.foldlM (arrayDelStepReads x) (arrayDelStep x a i)).result = .ok r ∧
    ((i :: is).foldlM (arrayDelStepReads x) a).events =
      (a.usize.toNat * i :: if a.Moves x i then [a.offset (a.length - 1)] else []) ++
        (is.foldlM (arrayDelStepReads x) (arrayDelStep x a i)).events := by
  rw [List.foldlM_cons] at h ⊢
  rw [Traced.result_bind] at h
  obtain ⟨b, hb, hrest⟩ := ok_of_bind h
  obtain ⟨rfl, hevents⟩ := arrayDelStepReads_ok hb
  refine ⟨hrest, ?_⟩
  rw [Traced.events_bind, hb, Traced.eventsAfter_ok, hevents]

/-- Where no product leaves `int` it is `array_del`. -/
theorem arrayDelReads_ok (h : (arrayDelReads a x).result = .ok r) : arrayDel a x = r := by
  have hrun : ∀ (is : List ℕ) (a : Arr), (is.foldlM (arrayDelStepReads x) a).result = .ok r →
      is.foldl (arrayDelStep x) a = r := by
    intro is
    induction is with
    | nil =>
        intro a h
        cases h
        rfl
    | cons i is ih =>
        intro a h
        exact ih _ (arrayDelRun_cons h).1
  exact hrun _ _ h

theorem arrayDelRun_usize : ∀ {is : List ℕ} {a : Arr},
    (is.foldlM (arrayDelStepReads x) a).result = .ok r → r.usize = a.usize := by
  intro is
  induction is with
  | nil =>
      intro a h
      cases h
      rfl
  | cons i is ih =>
      intro a h
      rw [ih (arrayDelRun_cons h).1, arrayDelStep_usize]

/-- Each element that is passed is read. -/
theorem mem_arrayDelRun_events : ∀ {is : List ℕ} {a : Arr},
    (is.foldlM (arrayDelStepReads x) a).result = .ok r →
    ∀ i ∈ is, a.usize.toNat * i ∈ (is.foldlM (arrayDelStepReads x) a).events := by
  intro is
  induction is with
  | nil => intro a _ i hi; cases hi
  | cons k is ih =>
      intro a h i hi
      obtain ⟨hrest, hevents⟩ := arrayDelRun_cons h
      rw [hevents, List.mem_append]
      rcases List.mem_cons.mp hi with rfl | hi
      · exact .inl List.mem_cons_self
      · right
        have hmem := ih hrest i hi
        rwa [arrayDelStep_usize] at hmem

variable {n : ℕ}

/-- What is read as an element is one of the first `n` elements. -/
def ReadsBelow (n : ℕ) (usize : UInt16) (events : List ℕ) : Prop :=
  ∀ o ∈ events, ∃ j < n, o = usize.toNat * j

/-- Then no pass brings in anything that was not among them. -/
theorem arrayDelRun_values : ∀ {is : List ℕ} {a : Arr},
    (is.foldlM (arrayDelStepReads x) a).result = .ok r →
    ReadsBelow n a.usize (is.foldlM (arrayDelStepReads x) a).events →
    ∀ k < n, ∃ j < n, r.elem k = a.elem j := by
  intro is
  induction is with
  | nil =>
      intro a h _ k hk
      cases h
      exact ⟨k, hk, rfl⟩
  | cons i is ih =>
      intro a h hreads k hk
      obtain ⟨hrest, hevents⟩ := arrayDelRun_cons h
      rw [hevents] at hreads
      have hlater : ReadsBelow n (arrayDelStep x a i).usize
          (is.foldlM (arrayDelStepReads x) (arrayDelStep x a i)).events := by
        rw [arrayDelStep_usize]
        exact fun o ho => hreads o (List.mem_append_right _ ho)
      obtain ⟨j, hj, hvalue⟩ := ih hrest hlater k hk
      rw [hvalue]
      by_cases hji : j = i
      · subst hji
        rw [arrayDelStep_elem_self]
        by_cases hmoves : a.Moves x j
        · rw [if_pos hmoves] at hreads ⊢
          obtain ⟨l, hl, hoffset⟩ := hreads (a.offset (a.length - 1)) (by simp)
          rw [hoffset]
          exact ⟨l, hl, rfl⟩
        · rw [if_neg hmoves]
          exact ⟨j, hj, rfl⟩
      · exact ⟨j, hj, arrayDelStep_elem_ne x hji⟩

/-- An element that is overwritten with another one is lost, so one that is still there at
the end was overwritten with itself. -/
theorem arrayDelRun_keeps {is : List ℕ}
    (hrun : ((i :: is).foldlM (arrayDelStepReads x) a).result = .ok r)
    (hreads : ReadsBelow n a.usize ((i :: is).foldlM (arrayDelStepReads x) a).events)
    (hinj : ∀ j < n, a.elem j = a.elem i → j = i) (hmoves : a.Moves x i)
    (hkept : ∃ k < n, r.elem k = a.elem i) :
    a.offset (a.length - 1) = a.usize.toNat * i := by
  obtain ⟨hrest, hevents⟩ := arrayDelRun_cons hrun
  rw [hevents, if_pos hmoves] at hreads
  obtain ⟨l, hl, hoffset⟩ := hreads (a.offset (a.length - 1)) (by simp)
  have hlater : ReadsBelow n (arrayDelStep x a i).usize
      (is.foldlM (arrayDelStepReads x) (arrayDelStep x a i)).events := by
    rw [arrayDelStep_usize]
    exact fun o ho => hreads o (List.mem_append_right _ ho)
  obtain ⟨k, hk, hkept⟩ := hkept
  obtain ⟨j, hj, hvalue⟩ := arrayDelRun_values hrest hlater k hk
  rw [hvalue] at hkept
  have hli : l = i := by
    by_cases hji : j = i
    · subst hji
      rw [arrayDelStep_elem_self, if_pos hmoves, hoffset] at hkept
      exact hinj l hl hkept
    · rw [arrayDelStep_elem_ne x hji] at hkept
      exact absurd (hinj j hj hkept) hji
  rw [hoffset, hli]

end Passes

/-- The element is taken out, the others stay, each once, and nothing but elements of the
array is read as one. -/
structure RemovesOne (a : Arr) (x : Bytes) : Prop where
  left : ∃ r, (arrayDelReads a x).result = .ok r ∧
    (a.after r).elems.Perm (a.elems.filter fun y => y ≠ x)
  reads : ReadsBelow a.length.toNat a.usize (arrayDelReads a x).events

section Removal

variable {a : Arr} {x : Bytes}

/-- An element that is there stays: the caller's length is the same. -/
theorem RemovesOne.absent (h : RemovesOne a x) : x ∉ a.elems := by
  intro hmem
  obtain ⟨r, -, hperm⟩ := h.left
  have hlength := hperm.length_eq
  rw [Arr.elems_length] at hlength
  have hlt : (a.elems.filter fun y => y ≠ x).length < a.elems.length :=
    List.length_filter_lt_length_iff_exists.mpr ⟨x, hmem, by simp⟩
  rw [Arr.elems_length, ← hlength] at hlt
  exact Nat.lt_irrefl _ hlt

theorem RemovesOne.perm (h : RemovesOne a x) :
    ∃ r, (arrayDelReads a x).result = .ok r ∧ (a.after r).elems.Perm a.elems := by
  obtain ⟨r, hr, hperm⟩ := h.left
  have hall : a.elems.filter (fun y => y ≠ x) = a.elems := by
    apply List.filter_eq_self.mpr
    intro y hy
    exact decide_eq_true fun heq => h.absent (heq ▸ hy)
  rw [hall] at hperm
  exact ⟨r, hr, hperm⟩

/-- All slots up to the capacity are read. -/
theorem RemovesOne.size_le (h : RemovesOne a x) (hx : x.length = a.usize.toNat) :
    a.size ≤ a.length.toNat := by
  by_contra hgt
  obtain ⟨r, hr, -⟩ := h.left
  have hread : a.usize.toNat * a.length.toNat ∈ (arrayDelReads a x).events :=
    mem_arrayDelRun_events hr _ (List.mem_range.mpr (Nat.not_le.mp hgt))
  obtain ⟨j, hj, hoffset⟩ := h.reads _ hread
  rcases Nat.eq_zero_or_pos a.usize.toNat with hzero | hpos
  · -- elements of no bytes are all the same
    apply h.absent
    refine Arr.mem_elems.mpr ⟨j, hj, ?_⟩
    have helem : (a.elem j).length = a.usize.toNat := Mem.slice_length ..
    rw [List.length_eq_zero_iff.mp (helem.trans hzero),
      List.length_eq_zero_iff.mp (hx.trans hzero)]
  · exact Nat.ne_of_gt hj (Nat.eq_of_mul_eq_mul_left hpos hoffset)

/-- With two elements or more, only a capacity of one and an offset that wraps around to 0
are harmless. -/
theorem RemovesOne.wraps (h : RemovesOne a x) (hnodup : a.elems.Nodup)
    (htwo : 2 ≤ a.length.toNat) (hpos : 0 < a.size) :
    a.size = 1 ∧ 2 ^ 32 ∣ a.usize.toNat * (a.length.toNat - 1) := by
  obtain ⟨r, hr, hperm⟩ := h.perm
  have hreads := h.reads
  have husize := a.usize.toNat_lt
  have hdiffers : ∀ i < a.length.toNat, a.elem i ≠ x := fun i hi heq =>
    h.absent (Arr.mem_elems.mpr ⟨i, hi, heq⟩)
  have hkept : ∀ i < a.length.toNat, ∃ k < a.length.toNat, r.elem k = a.elem i := by
    intro i hi
    have hmem := hperm.mem_iff.mpr (Arr.mem_elems.mpr ⟨i, hi, rfl⟩)
    obtain ⟨k, hk, heq⟩ := Arr.mem_elems.mp hmem
    refine ⟨k, hk, ?_⟩
    rw [← heq, Arr.elem, arrayDelRun_usize hr]
    rfl
  obtain ⟨m, hm⟩ : ∃ m, a.size = m + 1 := ⟨a.size - 1, by omega⟩
  rw [arrayDelReads, hm, List.range_eq_range', List.range'_succ] at hr hreads
  -- the first pass
  have hlast : (a.length - 1).toNat = a.length.toNat - 1 := pred_toNat (by omega)
  have hmoves : a.Moves x 0 := by
    refine ⟨hdiffers 0 (by omega), UInt32.lt_iff_toNat_lt.mpr htwo, fun heq => ?_⟩
    rw [← heq] at hlast
    exact absurd hlast (Nat.ne_of_lt (Nat.sub_pos_of_lt htwo))
  have hwraps := arrayDelRun_keeps hr hreads
    (fun j hj => Arr.elem_inj hnodup hj (by omega)) hmoves (hkept 0 (by omega))
  have hfirst : (arrayDelStep x a 0).elem 0 = a.elem 0 := by
    rw [arrayDelStep_elem_self, if_pos hmoves, hwraps]
    rfl
  rw [a.offset_toNat, hlast, Nat.mul_zero] at hwraps
  refine ⟨?_, Nat.dvd_of_mod_eq_zero hwraps⟩
  by_contra hsize
  obtain ⟨l, rfl⟩ : ∃ l, m = l + 1 := ⟨m - 1, by omega⟩
  -- the second pass, which finds the elements as they were
  rw [List.range'_succ] at hr hreads
  obtain ⟨hrest, hevents⟩ := arrayDelRun_cons hr
  have helem : ∀ k, (arrayDelStep x a 0).elem k = a.elem k := by
    intro k
    by_cases hk : k = 0
    · rw [hk, hfirst]
    · exact arrayDelStep_elem_ne x hk
  have hlength : (arrayDelStep x a 0).length = a.length - 1 := by
    unfold arrayDelStep
    rw [if_pos (by simpa using hdiffers 0 (by omega))]
  have hfour : 4 ≤ a.length.toNat := by
    by_contra hlt
    have hmul : 0 < a.usize.toNat * (a.length.toNat - 1) :=
      Nat.mul_pos (Arr.usize_pos hnodup htwo) (by omega)
    have hbig := Nat.le_of_dvd hmul (Nat.dvd_of_mod_eq_zero hwraps)
    have hsmall : a.usize.toNat * (a.length.toNat - 1) ≤ 65535 * 2 :=
      Nat.mul_le_mul (by omega) (by omega)
    omega
  have hlast' : ((arrayDelStep x a 0).length - 1).toNat = a.length.toNat - 2 := by
    rw [hlength, pred_toNat (by omega), hlast]
    omega
  have hmoves' : (arrayDelStep x a 0).Moves x 1 := by
    refine ⟨?_, ?_, fun heq => ?_⟩
    · rw [helem]
      exact hdiffers 1 (by omega)
    · rw [hlength, UInt32.lt_iff_toNat_lt, hlast, show (1 : UInt32).toNat = 1 from rfl]
      omega
    · rw [← heq] at hlast'
      exact absurd hlast' (Nat.ne_of_lt (by show 1 < a.length.toNat - 2; omega))
  have hlater : ReadsBelow a.length.toNat (arrayDelStep x a 0).usize
      ((1 :: List.range' 2 l).foldlM (arrayDelStepReads x) (arrayDelStep x a 0)).events := by
    rw [arrayDelStep_usize]
    intro o ho
    apply hreads o
    rw [hevents]
    exact List.mem_append_right _ ho
  have hwraps' := arrayDelRun_keeps hrest hlater
    (fun j hj heq => Arr.elem_inj hnodup hj (by omega) (by rwa [helem, helem] at heq)) hmoves'
    (by rw [helem]; exact hkept 1 (by omega))
  rw [Arr.offset_toNat, arrayDelStep_usize, hlast', Nat.mul_one] at hwraps'
  -- both offsets cannot wrap around to where they should
  have hnext : a.usize.toNat * (a.length.toNat - 1) =
      a.usize.toNat * (a.length.toNat - 2) + a.usize.toNat := by
    rw [← Nat.mul_succ]
    congr 1
    omega
  have hpositive := Arr.usize_pos hnodup htwo
  omega

/-- The capacity of one, or no pass at all. -/
theorem removesOne_of_absent (habsent : x ∉ a.elems) (hle : a.size ≤ a.length.toNat)
    (h : a.length.toNat ≤ 1 ∨ a.size = 0 ∨
      a.size = 1 ∧ 2 ^ 32 ∣ a.usize.toNat * (a.length.toNat - 1)) : RemovesOne a x := by
  have hall : a.elems.filter (fun y => y ≠ x) = a.elems := by
    apply List.filter_eq_self.mpr
    intro y hy
    exact decide_eq_true fun heq => habsent (heq ▸ hy)
  rcases Nat.lt_or_ge 0 a.size with hpos | hzero
  · -- one pass over the first element
    have hsize : a.size = 1 := by omega
    have hrange : List.range a.size = [0] := by rw [hsize]; rfl
    have hint : a.InInt 0 := ⟨by norm_num, by norm_num⟩
    have hrun : (arrayDelReads a x).result = .ok (arrayDelStep x a 0) := by
      rw [arrayDelReads, hrange, List.foldlM_cons, Traced.result_bind,
        arrayDelStepReads_of_inInt hint]
      rfl
    have hevents : (arrayDelReads a x).events =
        a.usize.toNat * 0 :: if a.Moves x 0 then [a.offset (a.length - 1)] else [] := by
      have hrun' := hrun
      rw [arrayDelReads, hrange] at hrun' ⊢
      rw [(arrayDelRun_cons hrun').2]
      exact List.append_nil _
    have hoffset : a.Moves x 0 → a.offset (a.length - 1) = 0 := by
      rintro ⟨-, hone, -⟩
      have hlt : 1 < a.length.toNat := UInt32.lt_iff_toNat_lt.mp hone
      have hdvd : 2 ^ 32 ∣ a.usize.toNat * (a.length.toNat - 1) := by
        rcases h with h | h | h
        · omega
        · omega
        · exact h.2
      rw [a.offset_toNat, pred_toNat (by omega)]
      exact Nat.mod_eq_zero_of_dvd hdvd
    have hsame : (a.after (arrayDelStep x a 0)).elems = a.elems := by
      refine Arr.elems_congr (b := a.after (arrayDelStep x a 0)) rfl ?_
      intro i _
      have helem : (a.after (arrayDelStep x a 0)).elem i = (arrayDelStep x a 0).elem i := by
        rw [Arr.elem, Arr.elem, arrayDelStep_usize]
        rfl
      rw [helem]
      by_cases hi : i = 0
      · subst hi
        rw [arrayDelStep_elem_self]
        split
        · next hmoves =>
            rw [hoffset hmoves]
            rfl
        · rfl
      · exact arrayDelStep_elem_ne x hi
    constructor
    · refine ⟨_, hrun, ?_⟩
      rw [hsame, hall]
    · rw [hevents]
      intro o ho
      refine ⟨0, by omega, ?_⟩
      rw [Nat.mul_zero] at ho ⊢
      rcases List.mem_cons.mp ho with rfl | ho
      · rfl
      · split at ho
        · next hmoves => rw [List.mem_singleton.mp ho, hoffset hmoves]
        · cases ho
  · have hrange : List.range a.size = [] := by rw [Nat.le_zero.mp hzero]; rfl
    constructor
    · refine ⟨a, ?_, ?_⟩
      · rw [arrayDelReads, hrange]
        rfl
      · rw [hall]
        exact List.Perm.refl _
    · rw [arrayDelReads, hrange]
      intro o ho
      cases ho

end Removal

/-- **`array_del` as a removal.** It takes exactly the element out if and only if the
element is not there, no slot behind the last element is scanned, and there is at
most one element, or no pass, or one pass whose offset of the last element wraps
around to the first. -/
theorem arrayDel_removesOne_iff (a : Arr) (x : Bytes) (hx : x.length = a.usize.toNat)
    (hnodup : a.elems.Nodup) :
    RemovesOne a x ↔ x ∉ a.elems ∧ a.size ≤ a.length.toNat ∧
      (a.length.toNat ≤ 1 ∨ a.size = 0 ∨
        a.size = 1 ∧ 2 ^ 32 ∣ a.usize.toNat * (a.length.toNat - 1)) := by
  constructor
  · intro h
    refine ⟨h.absent, h.size_le hx, ?_⟩
    by_cases hone : a.length.toNat ≤ 1
    · exact .inl hone
    · rcases Nat.eq_zero_or_pos a.size with hzero | hpos
      · exact .inr (.inl hzero)
      · exact .inr (.inr (h.wraps hnodup (by omega) hpos))
  · rintro ⟨habsent, hle, hcase⟩
    exact removesOne_of_absent habsent hle hcase

/-- From an array of one element another one can be removed. -/
theorem arrayDel_removesOne_single :
    ([2] : Bytes).length = (byteArray [1] 1).usize.toNat ∧ (byteArray [1] 1).elems.Nodup ∧
    RemovesOne (byteArray [1] 1) [2] :=
  ⟨by decide, by decide, (arrayDel_removesOne_iff _ _ (by decide) (by decide)).mpr
    ⟨by decide, by decide, .inl (by decide)⟩⟩

/-- An element that is there stays. -/
theorem arrayDel_leaves_present :
    ((byteArray [1, 2] 2).after (arrayDel (byteArray [1, 2] 2) [1])).elems = [[1], [2]] ∧
    ¬ ∀ (a : Arr) (x : Bytes), x.length = a.usize.toNat → a.elems.Nodup → RemovesOne a x := by
  refine ⟨by decide, ?_⟩
  intro hall
  exact (hall (byteArray [1, 2] 2) [1] (by decide) (by decide)).absent (by decide)

end Freecoin
