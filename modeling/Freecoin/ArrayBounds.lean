import Freecoin.ArraySet

/-!
# array.c: what the array functions touch

Both functions go through all slots up to the capacity with an `int`, and
`array_del` counts its copy of the length down without a stop. After it has
passed 0 the next move reads far behind the data.
-/

namespace Freecoin

open Lib

/-- A function gets to its end, and all it touches are elements of `usize` bytes in the
first `n` slots. -/
structure StaysInside {α : Type} (usize n : ℕ) (x : Traced ℕ IntOverflow α) : Prop where
  ends : ∃ r, x.result = .ok r
  inside : ∀ o ∈ x.events, o + usize ≤ usize * n

theorem staysInside_pure {α : Type} (usize n : ℕ) (r : α) :
    StaysInside usize n (pure r : Traced ℕ IntOverflow α) :=
  ⟨⟨r, rfl⟩, fun _ ho => absurd ho List.not_mem_nil⟩

theorem StaysInside.of_bind {α β : Type} {usize n : ℕ} {x : Traced ℕ IntOverflow α}
    {f : α → Traced ℕ IntOverflow β} (h : StaysInside usize n (x >>= f)) :
    StaysInside usize n x := by
  obtain ⟨⟨r, hr⟩, hinside⟩ := h
  obtain ⟨a, ha, -⟩ := ok_of_bind hr
  exact ⟨⟨a, ha⟩, fun o ho => hinside o (List.mem_append_left _ ho)⟩

theorem staysInside_bind {α β : Type} {usize n : ℕ} {x : Traced ℕ IntOverflow α} {a : α}
    {f : α → Traced ℕ IntOverflow β} (ha : x.result = .ok a) :
    StaysInside usize n (x >>= f) ↔ StaysInside usize n x ∧ StaysInside usize n (f a) := by
  have hresult : (x >>= f).result = (f a).result := by
    rw [Traced.result_bind, ha]
    rfl
  have hevents : (x >>= f).events = x.events ++ (f a).events := by
    rw [Traced.events_bind, ha, Traced.eventsAfter_ok]
  constructor
  · rintro h
    refine ⟨h.of_bind, ?_, ?_⟩
    · exact hresult ▸ h.ends
    · exact fun o ho => h.inside o (hevents ▸ List.mem_append_right _ ho)
  · rintro ⟨hx, hf⟩
    refine ⟨hresult ▸ hf.ends, fun o ho => ?_⟩
    rw [hevents] at ho
    rcases List.mem_append.mp ho with ho | ho
    · exact hx.inside o ho
    · exact hf.inside o ho

theorem staysInside_event_bind {α : Type} {usize n o : ℕ} {f : Unit → Traced ℕ IntOverflow α} :
    StaysInside usize n (Traced.event o >>= f) ↔
      o + usize ≤ usize * n ∧ StaysInside usize n (f ()) := by
  rw [staysInside_bind (Traced.result_event o)]
  refine and_congr_left fun _ => ?_
  constructor
  · exact fun h => h.inside o List.mem_cons_self
  · exact fun ho => ⟨⟨(), rfl⟩, fun p hp => List.mem_singleton.mp hp ▸ ho⟩

/-- Slot `k` is one of the first `n`, and its place can be computed. -/
def Arr.Reaches (a : Arr) (n k : ℕ) : Prop := k < n ∧ a.InInt k

instance (a : Arr) (n k : ℕ) : Decidable (a.Reaches n k) := inferInstanceAs (Decidable (_ ∧ _))

theorem Arr.reaches_iff {a : Arr} (hu : a.usize = 32) {n k : ℕ} :
    a.Reaches n k ↔ k < n ∧ k < 2 ^ 26 := by
  rw [Arr.Reaches, Arr.InInt, hu, show (32 : UInt16).toNat = 32 from rfl]
  omega

/-! ## `array_add` -/

/-- The loop of `array_add`, with the offsets of the elements it reads. -/
def arrayAddScanReads (a : Arr) (data : Bytes) : ℕ → ℕ → Traced ℕ IntOverflow Bool
  | 0, _ => pure false
  | n + 1, i =>
      if ¬ a.InInt i then Traced.lift (.error .position)
      else do
        Traced.event (a.usize.toNat * i)
        if a.elem i != data then pure true else arrayAddScanReads a data n (i + 1)

/-- `array_add(a, data)`, with the offsets of the elements it reads or writes. -/
def arrayAddReads (a : Arr) (data : Bytes) : Traced ℕ IntOverflow (Bool × Arr) :=
  if a.size ≤ ((a.usize.toUInt32 + 1) * a.length).toNat then pure (false, a)
  else do
    let differs ← arrayAddScanReads a data a.size 0
    if differs then pure (false, a)
    else do
      Traced.event (a.offset a.length)
      pure (true, { a with data := a.data.write (a.offset a.length) data, length := a.length + 1 })

theorem arrayAddScanReads_result (a : Arr) (data : Bytes) :
    ∀ n i, (arrayAddScanReads a data n i).result = arrayAddScan a data n i := by
  intro n
  induction n with
  | zero => intro i; rfl
  | succ n ih =>
      intro i
      rw [arrayAddScanReads, arrayAddScan]
      split
      · rfl
      · rw [Traced.result_bind, Traced.result_event]
        show Traced.result (if _ then _ else _) = _
        split
        · rfl
        · exact ih (i + 1)

theorem arrayAddReads_result (a : Arr) (data : Bytes) :
    (arrayAddReads a data).result = arrayAddInt a data := by
  rw [arrayAddReads, arrayAddInt]
  split
  · rfl
  · rw [Traced.result_bind, arrayAddScanReads_result]
    cases arrayAddScan a data a.size 0 with
    | error e => rfl
    | ok differs => cases differs <;> rfl

section Add

variable {a : Arr} {x : Bytes} {n : ℕ}

/-- The loop stays inside if it gets to an element that differs, or through all slots. -/
theorem arrayAddScanReads_inside_iff (hu : a.usize = 32) : ∀ {m i : ℕ},
    StaysInside 32 n (arrayAddScanReads a x m i) ↔
      (∃ k, i ≤ k ∧ k < i + m ∧ a.Reaches n k ∧ a.elem k ≠ x) ∨
        ∀ k, i ≤ k → k < i + m → a.Reaches n k := by
  intro m
  induction m with
  | zero =>
      intro i
      exact iff_of_true (staysInside_pure 32 n false)
        (.inr fun k hik hk => absurd hk (Nat.not_lt.mpr hik))
  | succ m ih =>
      intro i
      rw [arrayAddScanReads]
      by_cases hint : a.InInt i
      · rw [if_neg (not_not.mpr hint), staysInside_event_bind, hu]
        have hslot : (32 : UInt16).toNat * i + 32 ≤ 32 * n ↔ a.Reaches n i := by
          rw [Arr.Reaches, and_iff_left hint, show (32 : UInt16).toNat = 32 from rfl]
          omega
        rw [hslot]
        by_cases hne : a.elem i = x
        · have hsame : ¬ (a.elem i != x) = true := by simp [hne]
          rw [if_neg hsame, ih]
          constructor
          · rintro ⟨hi, ⟨k, hik, hk, hreach, hdiffers⟩ | hall⟩
            · exact .inl ⟨k, by omega, by omega, hreach, hdiffers⟩
            · refine .inr fun k hik hk => ?_
              rcases Nat.eq_or_lt_of_le hik with rfl | hlt
              · exact hi
              · exact hall k hlt (by omega)
          · rintro (⟨k, hik, hk, ⟨hkn, hkint⟩, hdiffers⟩ | hall)
            · have hki : k ≠ i := by
                rintro rfl
                exact hdiffers hne
              exact ⟨⟨by omega, hint⟩, .inl ⟨k, by omega, by omega, ⟨hkn, hkint⟩, hdiffers⟩⟩
            · exact ⟨hall i (Nat.le_refl i) (by omega),
                .inr fun k hik hk => hall k (by omega) (by omega)⟩
        · have hdiffers : (a.elem i != x) = true := by simp [hne]
          rw [if_pos hdiffers, and_iff_left (staysInside_pure 32 n true)]
          constructor
          · intro hi
            exact .inl ⟨i, Nat.le_refl i, by omega, hi, hne⟩
          · rintro (⟨k, hik, -, ⟨hkn, -⟩, -⟩ | hall)
            · exact ⟨by omega, hint⟩
            · exact hall i (Nat.le_refl i) (by omega)
      · rw [if_pos hint]
        -- the loop ends here, and no later slot has a place either
        refine iff_of_false ?_ ?_
        · rintro ⟨⟨r, hr⟩, -⟩
          cases hr
        · have hlater : ∀ k, i ≤ k → ¬ a.Reaches n k := by
            rintro k hik ⟨-, hk, hoffset⟩
            have hle : a.usize.toNat * i ≤ a.usize.toNat * k := Nat.mul_le_mul_left _ hik
            exact hint ⟨hik.trans_lt hk, hle.trans_lt hoffset⟩
          rintro (⟨k, hik, -, hreach, -⟩ | hall)
          · exact hlater k hik hreach
          · exact hlater i (Nat.le_refl i) (hall i (Nat.le_refl i) (by omega))

/-- **`array_add` inside its data.** It is full; or it gets to an element that differs; or
it goes through all slots, and has room behind the last element. -/
theorem arrayAddReads_inside_iff (hu : a.usize = 32) :
    StaysInside 32 n (arrayAddReads a x) ↔
      a.size ≤ ((a.usize.toUInt32 + 1) * a.length).toNat ∨
      (∃ k < a.size, a.Reaches n k ∧ a.elem k ≠ x) ∨
      ((∀ k < a.size, a.Reaches n k) ∧ a.offset a.length + 32 ≤ 32 * n) := by
  have hscan := arrayAddScanReads_inside_iff (n := n) (x := x) hu (m := a.size) (i := 0)
  simp only [Nat.zero_le, Nat.zero_add, true_and, true_implies] at hscan
  rw [arrayAddReads]
  by_cases hfull : a.size ≤ ((a.usize.toUInt32 + 1) * a.length).toNat
  · rw [if_pos hfull]
    exact iff_of_true (staysInside_pure 32 n _) (.inl hfull)
  · rw [if_neg hfull, or_iff_right hfull]
    have hresult := arrayAddScanReads_result a x a.size 0
    cases hends : arrayAddScan a x a.size 0 with
    | error e =>
        rw [hends] at hresult
        refine iff_of_false ?_ ?_
        · intro h
          obtain ⟨r, hr⟩ := h.of_bind.ends
          cases hresult.symm.trans hr
        · intro h
          obtain ⟨r, hr⟩ := (hscan.mpr (h.imp id And.left)).ends
          cases hresult.symm.trans hr
    | ok differs =>
        rw [hends] at hresult
        rw [staysInside_bind hresult, hscan]
        cases differs with
        | true =>
            rw [if_pos rfl, and_iff_left (staysInside_pure 32 n _)]
            obtain ⟨k, -, hk, -, hne⟩ := arrayAddScan_true_iff.mp hends
            constructor
            · rintro (hreach | hall)
              · exact .inl hreach
              · exact .inl ⟨k, by omega, hall k (by omega), hne⟩
            · exact Or.imp id And.left
        | false =>
            rw [if_neg Bool.false_ne_true, staysInside_event_bind,
              and_iff_left (staysInside_pure 32 n _)]
            have hsame : ¬ ∃ k < a.size, a.Reaches n k ∧ a.elem k ≠ x := by
              rintro ⟨k, hk, hreach, hne⟩
              have htrue := (arrayAddScan_true_iff (n := a.size) (i := 0)).mpr
                ⟨k, Nat.zero_le k, by omega, hreach.2, hne⟩
              cases hends.symm.trans htrue
            rw [or_iff_right hsame, or_iff_right hsame]

end Add

/-! ## `array_del` -/

/-- How many of the first `k` slots hold something else than `x`. -/
def Arr.differing (a : Arr) (x : Bytes) (k : ℕ) : ℕ :=
  (List.range k).countP fun i => a.elem i != x

theorem Arr.differing_succ (a : Arr) (x : Bytes) (k : ℕ) :
    a.differing x (k + 1) = a.differing x k + if a.elem k = x then 0 else 1 := by
  rw [Arr.differing, List.range_succ, List.countP_append, List.countP_singleton]
  by_cases h : a.elem k = x <;> simp [h, Arr.differing]

theorem Arr.differing_le (a : Arr) (x : Bytes) (k : ℕ) : a.differing x k ≤ k :=
  List.countP_le_length.trans_eq (List.length_range ..)

theorem Arr.differing_mono (a : Arr) (x : Bytes) {k m : ℕ} (h : k ≤ m) :
    a.differing x k ≤ a.differing x m := by
  induction m, h using Nat.le_induction with
  | base => exact Nat.le_refl _
  | succ m _ ih =>
      rw [Arr.differing_succ]
      exact Nat.le_add_right_of_le ih

/-- Counting up to `d + 1` goes past `d` at some slot. -/
theorem Arr.exists_differing {a : Arr} {x : Bytes} {d : ℕ} :
    ∀ {m : ℕ}, d < a.differing x m → ∃ k < m, a.elem k ≠ x ∧ a.differing x k = d := by
  intro m
  induction m with
  | zero => exact fun h => absurd h (Nat.not_lt_zero d)
  | succ m ih =>
      intro h
      rw [Arr.differing_succ] at h
      by_cases hm : d < a.differing x m
      · obtain ⟨k, hk, hrest⟩ := ih hm
        exact ⟨k, Nat.lt_succ_of_lt hk, hrest⟩
      · by_cases hne : a.elem m = x
        · rw [if_pos hne] at h
          exact absurd h hm
        · rw [if_neg hne] at h
          exact ⟨m, Nat.lt_succ_self m, hne, by omega⟩

section Del

variable {a : Arr} {x : Bytes} {n : ℕ}

theorem arrayDelStep_length (x : Bytes) (a : Arr) (k : ℕ) :
    (arrayDelStep x a k).length = if a.elem k = x then a.length else a.length - 1 := by
  unfold arrayDelStep
  by_cases h : a.elem k = x <;> simp [h]

/-- The copy of the length goes down with every slot that differs. -/
theorem arrayDelPasses_length_differing (x : Bytes) (a : Arr) (k : ℕ) :
    (arrayDelPasses x a k).length = a.length - UInt32.ofNat (a.differing x k) := by
  induction k with
  | zero => exact (UInt32.sub_zero _).symm
  | succ k ih =>
      rw [arrayDelPasses_succ, arrayDelStep_length, arrayDelPasses_elem_before x (Nat.le_refl k),
        ih, Arr.differing_succ]
      split
      · rfl
      · rw [UInt32.ofNat_add]
        show _ - 1 = a.length - (_ + 1)
        grind

theorem arrayDelPasses_usize_eq (x : Bytes) (a : Arr) (k : ℕ) :
    (arrayDelPasses x a k).usize = a.usize := by
  induction k with
  | zero => rfl
  | succ k ih => rw [arrayDelPasses_succ, arrayDelStep_usize, ih]

/-- What pass `i` touches: the element of the slot, and the one that it moves there. -/
def Arr.DelTouches (a : Arr) (x : Bytes) (i o : ℕ) : Prop :=
  o = a.usize.toNat * i ∨ (arrayDelPasses x a i).Moves x i ∧
    o = (arrayDelPasses x a i).offset ((arrayDelPasses x a i).length - 1)

/-- A run of `m` passes from the `k`-th on. -/
theorem arrayDelRun_reads : ∀ {m k : ℕ}, (∀ i, k ≤ i → i < k + m → a.InInt i) →
    ((List.range' k m).foldlM (arrayDelStepReads x) (arrayDelPasses x a k)).result =
      .ok (arrayDelPasses x a (k + m)) ∧
    ∀ o, o ∈ ((List.range' k m).foldlM (arrayDelStepReads x) (arrayDelPasses x a k)).events ↔
      ∃ i, k ≤ i ∧ i < k + m ∧ a.DelTouches x i o := by
  intro m
  induction m with
  | zero =>
      intro k _
      refine ⟨rfl, fun o => iff_of_false List.not_mem_nil ?_⟩
      rintro ⟨i, hki, hi, -⟩
      exact absurd hi (Nat.not_lt.mpr hki)
  | succ m ih =>
      intro k hint
      have husize := arrayDelPasses_usize_eq x a k
      have hk : (arrayDelPasses x a k).InInt k := by
        rw [Arr.InInt, husize]
        exact hint k (Nat.le_refl k) (by omega)
      obtain ⟨hresult, hevents⟩ := ih (k := k + 1) fun i hki hi => hint i (by omega) (by omega)
      have hrun : ((k :: List.range' (k + 1) m).foldlM (arrayDelStepReads x)
          (arrayDelPasses x a k)).result = .ok (arrayDelPasses x a (k + (m + 1))) := by
        rw [List.foldlM_cons, Traced.result_bind, arrayDelStepReads_of_inInt hk,
          ← arrayDelPasses_succ, Nat.add_comm m 1, ← Nat.add_assoc]
        exact hresult
      rw [List.range'_succ]
      refine ⟨hrun, fun o => ?_⟩
      rw [(arrayDelRun_cons hrun).2, ← arrayDelPasses_succ, List.mem_append, hevents]
      have hfirst : (o ∈ (arrayDelPasses x a k).usize.toNat * k ::
          if (arrayDelPasses x a k).Moves x k then
            [(arrayDelPasses x a k).offset ((arrayDelPasses x a k).length - 1)] else []) ↔
          a.DelTouches x k o := by
        rw [List.mem_cons, husize, Arr.DelTouches]
        split
        · next hmoves => rw [List.mem_singleton, and_iff_right hmoves]
        · next hstays =>
            exact or_congr_right (iff_of_false List.not_mem_nil fun h => hstays h.1)
      rw [hfirst]
      constructor
      · rintro (hfirst | ⟨i, hki, hi, htouches⟩)
        · exact ⟨k, Nat.le_refl k, by omega, hfirst⟩
        · exact ⟨i, by omega, by omega, htouches⟩
      · rintro ⟨i, hki, hi, htouches⟩
        rcases Nat.eq_or_lt_of_le hki with rfl | hlt
        · exact .inl htouches
        · exact .inr ⟨i, hlt, by omega, htouches⟩

theorem arrayDelReads_reads (hint : ∀ i < a.size, a.InInt i) :
    (arrayDelReads a x).result = .ok (arrayDelPasses x a a.size) ∧
    ∀ o, o ∈ (arrayDelReads a x).events ↔ ∃ i < a.size, a.DelTouches x i o := by
  have hrun := arrayDelRun_reads (x := x) (m := a.size) (k := 0) fun i _ hi => hint i (by omega)
  simp only [Nat.zero_add, Nat.zero_le, true_and] at hrun
  rw [arrayDelReads, List.range_eq_range']
  exact hrun

/-- A run that gets to its end had a place for every slot. -/
theorem arrayDelRun_inInt : ∀ {is : List ℕ} {a r : Arr},
    (is.foldlM (arrayDelStepReads x) a).result = .ok r → ∀ i ∈ is, a.InInt i := by
  intro is
  induction is with
  | nil => exact fun _ i hi => absurd hi List.not_mem_nil
  | cons k is ih =>
      intro a r h i hi
      have hrest := ih (arrayDelRun_cons h).1
      rw [List.foldlM_cons, Traced.result_bind] at h
      obtain ⟨b, hb, -⟩ := ok_of_bind h
      rcases List.mem_cons.mp hi with rfl | hi
      · by_contra hint
        rw [arrayDelStepReads, if_pos hint] at hb
        cases hb
      · have hlater := hrest i hi
        rwa [Arr.InInt, arrayDelStep_usize] at hlater

theorem arrayDelReads_ends_iff :
    (∃ r, (arrayDelReads a x).result = .ok r) ↔ ∀ i < a.size, a.InInt i := by
  constructor
  · rintro ⟨r, hr⟩ i hi
    exact arrayDelRun_inInt hr i (List.mem_range.mpr hi)
  · intro hint
    exact ⟨_, (arrayDelReads_reads hint).1⟩

/-- From an array of at most one element the first move comes when the length of the copy
has gone past 0, and reads behind everything that has a place. -/
theorem arrayDelPasses_moves (hu : a.usize = 32) (hone : a.length.toNat ≤ 1) {i : ℕ}
    (hi : i < 2 ^ 26) :
    ((arrayDelPasses x a i).Moves x i ↔ a.elem i ≠ x ∧ a.length.toNat < a.differing x i) ∧
    (a.length.toNat < a.differing x i →
      32 * 2 ^ 26 ≤ (arrayDelPasses x a i).offset ((arrayDelPasses x a i).length - 1)) := by
  have hle := a.differing_le x i
  have hlen := a.length.toNat_lt
  have hofNat : (UInt32.ofNat (a.differing x i)).toNat = a.differing x i := by
    rw [UInt32.toNat_ofNat', Nat.mod_eq_of_lt (by omega)]
  have hsub : (a.length - UInt32.ofNat (a.differing x i)).toNat =
      (2 ^ 32 - a.differing x i + a.length.toNat) % 2 ^ 32 := by
    rw [UInt32.toNat_sub, hofNat]
  have hpred : (a.length - UInt32.ofNat (a.differing x i) - 1).toNat =
      (2 ^ 32 - 1 + (a.length - UInt32.ofNat (a.differing x i)).toNat) % 2 ^ 32 := by
    rw [UInt32.toNat_sub]
    rfl
  have hplace : (UInt32.ofNat i).toNat = i := by
    rw [UInt32.toNat_ofNat', Nat.mod_eq_of_lt (by omega)]
  constructor
  · rw [Arr.Moves, arrayDelPasses_elem_before x (Nat.le_refl i), arrayDelPasses_length_differing,
      UInt32.lt_iff_toNat_lt, ← UInt32.toNat_inj.ne, hpred, hsub, hplace,
      show (1 : UInt32).toNat = 1 from rfl]
    refine and_congr_right fun _ => ?_
    omega
  · intro hpast
    rw [Arr.offset_eq (arrayDelPasses_usize x hu i), arrayDelPasses_length_differing, hpred, hsub]
    omega

/-- **`array_del` inside its data.** From an array of at most one element the function stays
inside if every slot is there and at most one more of them than the length differs
from what is deleted. -/
theorem arrayDelReads_inside_iff (hu : a.usize = 32) (hone : a.length.toNat ≤ 1)
    (hn : n ≤ a.size) :
    StaysInside 32 n (arrayDelReads a x) ↔
      (∀ i < a.size, a.Reaches n i) ∧ a.differing x a.size ≤ a.length.toNat + 1 := by
  have hslot : ∀ i, a.usize.toNat * i + 32 ≤ 32 * n ↔ i < n := by
    intro i
    rw [hu, show (32 : UInt16).toNat = 32 from rfl]
    omega
  constructor
  · rintro ⟨hends, hinside⟩
    have hint := arrayDelReads_ends_iff.mp hends
    have htouched : ∀ i < a.size, ∀ o, a.DelTouches x i o → o + 32 ≤ 32 * n := fun i hi o ho =>
      hinside o (((arrayDelReads_reads hint).2 o).mpr ⟨i, hi, ho⟩)
    refine ⟨fun i hi => ⟨(hslot i).mp (htouched i hi _ (.inl rfl)), hint i hi⟩, ?_⟩
    by_contra hmany
    obtain ⟨i, hi, hne, hcount⟩ := Arr.exists_differing (Nat.not_le.mp hmany)
    have hsmall : ∀ j < a.size, j < 2 ^ 26 := by
      intro j hj
      have hplace := (hint j hj).2
      rw [hu, show (32 : UInt16).toNat = 32 from rfl] at hplace
      omega
    obtain ⟨hmoves, hfar⟩ := arrayDelPasses_moves (x := x) hu hone (hsmall i hi)
    have hpast : a.length.toNat < a.differing x i := hcount ▸ Nat.lt_succ_self _
    have hread := htouched i hi _ (.inr ⟨hmoves.mpr ⟨hne, hpast⟩, rfl⟩)
    have hbehind := hfar hpast
    have hlast := hsmall (a.size - 1) (by omega)
    omega
  · rintro ⟨hreach, hfew⟩
    have hint : ∀ i < a.size, a.InInt i := fun i hi => (hreach i hi).2
    obtain ⟨hresult, hevents⟩ := arrayDelReads_reads (x := x) hint
    refine ⟨⟨_, hresult⟩, fun o ho => ?_⟩
    obtain ⟨i, hi, rfl | ⟨hmoves, -⟩⟩ := (hevents o).mp ho
    · exact (hslot i).mpr (hreach i hi).1
    · -- a move would be one slot more that differs
      have hplace := (Arr.reaches_iff hu).mp (hreach i hi)
      obtain ⟨hne, hpast⟩ := (arrayDelPasses_moves hu hone hplace.2).1.mp hmoves
      have hmono := a.differing_mono x (Nat.succ_le_of_lt hi)
      rw [Arr.differing_succ, if_neg hne] at hmono
      omega

end Del

/-- Nothing to delete, and two slots that differ: the second pass reads from 4 GiB behind. -/
example : (arrayDelReads (byteArray [] 2) [5]).events = [0, 1, 2 ^ 32 - 2] := by decide

end Freecoin
