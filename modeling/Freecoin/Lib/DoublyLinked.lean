import Mathlib.Data.List.Chain
import Mathlib.Data.List.Nodup
import Mathlib.Logic.Function.Iterate

/-!
# Doubly linked lists

A doubly linked list, seen from outside, is two functions on addresses and a
list of addresses of which each two neighbours point at each other. A cell is
put in by four assignments and taken out by two.
-/

namespace Lib

variable {ι : Type}

/-- Neighbours point at each other. -/
def Linked (next prev : ι → ι) (l : List ι) : Prop :=
  l.IsChain fun a b => next a = b ∧ prev b = a

namespace Linked

variable {next prev next' prev' : ι → ι} {a b c x : ι} {l : List ι}

/-- Only the pointers of the cells count, and not the one back from the first. -/
theorem congr (hnext : ∀ p ∈ l, next' p = next p) (hprev : ∀ p ∈ l.tail, prev' p = prev p)
    (h : Linked next prev l) : Linked next' prev' l := by
  apply List.IsChain.imp_of_mem_tail_imp _ h
  rintro p q hp hq ⟨hpq, hqp⟩
  exact ⟨(hnext p hp).trans hpq, (hprev q hq).trans hqp⟩

theorem cons_cons : Linked next prev (a :: b :: l) ↔
    (next a = b ∧ prev b = a) ∧ Linked next prev (b :: l) := List.isChain_cons_cons

/-- The last link. -/
theorem append_pair : Linked next prev (l ++ [a, b]) ↔
    Linked next prev (l ++ [a]) ∧ next a = b ∧ prev b = a := by
  rw [Linked, List.isChain_append_cons_cons]
  exact and_congr_right fun _ => and_iff_left (List.isChain_singleton b)

/-! ## Following the pointers -/

/-- Following `next` from the first cell. -/
theorem iterate_next : ∀ {l : List ι} {a : ι}, Linked next prev (a :: l) →
    ∀ i (h : i < (a :: l).length), next^[i] a = (a :: l)[i] := by
  intro l
  induction l with
  | nil =>
      intro a _ i h
      obtain rfl : i = 0 := Nat.lt_one_iff.mp h
      rfl
  | cons b l ih =>
      intro a hlinked i h
      obtain ⟨⟨hab, -⟩, hrest⟩ := cons_cons.mp hlinked
      cases i with
      | zero => rfl
      | succ i =>
          rw [Function.iterate_succ_apply, hab, ih hrest i (Nat.lt_of_succ_lt_succ h)]
          rfl

/-- Read backwards, the list is linked the other way round. -/
theorem reverse (h : Linked next prev l) : Linked prev next l.reverse := by
  rw [Linked, List.isChain_reverse]
  apply List.IsChain.imp _ h
  rintro p q ⟨hpq, hqp⟩
  exact ⟨hqp, hpq⟩

/-- A list is linked if and only if `next` leads through it from its first cell and `prev` leads
through it backwards from its last. -/
theorem iff_iterate {l : List ι} (hl : l = a :: l.tail) (hr : l.reverse = b :: l.reverse.tail) :
    Linked next prev l ↔ (∀ i (h : i < l.length), next^[i] a = l[i]) ∧
      ∀ i (h : i < l.reverse.length), prev^[i] b = l.reverse[i] := by
  constructor
  · intro hlinked
    have hback := hlinked.reverse
    rw [hl] at hlinked
    rw [hr] at hback
    constructor
    · intro i h
      have hi : i < (a :: l.tail).length := hl ▸ h
      rw [hlinked.iterate_next i hi]
      exact List.getElem_of_eq hl.symm hi
    · intro i h
      have hi : i < (b :: l.reverse.tail).length := hr ▸ h
      rw [hback.iterate_next i hi]
      exact List.getElem_of_eq hr.symm hi
  · rintro ⟨hnext, hprev⟩
    rw [Linked, List.isChain_iff_getElem]
    intro i h
    refine ⟨?_, ?_⟩
    · rw [← hnext i (Nat.lt_of_succ_lt h), ← hnext (i + 1) h, Function.iterate_succ_apply']
    · -- the cell `i + 1` from the front is the cell `k` from the back
      obtain ⟨k, hk⟩ : ∃ k, l.length = i + 1 + (k + 1) := ⟨l.length - (i + 1) - 1, by omega⟩
      have hcell : ∀ j (hj : j < l.length) (m : ℕ), j + (m + 1) = l.length →
          l[j] = prev^[m] b := by
        intro j hj m hm
        rw [hprev m (by rw [List.length_reverse]; omega), List.getElem_reverse]
        congr 1
        omega
      rw [hcell (i + 1) h k hk.symm, hcell i (Nat.lt_of_succ_lt h) (k + 1) (by omega),
        Function.iterate_succ_apply']

/-! ## Surgery -/

variable [DecidableEq ι]

/-- A new cell between the first two. -/
theorem insert (h : Linked next prev (a :: b :: l)) (hnodup : (a :: b :: l).Nodup)
    (hx : x ∉ a :: b :: l) :
    Linked (Function.update (Function.update next x b) a x)
      (Function.update (Function.update prev b x) x a) (a :: x :: b :: l) := by
  obtain ⟨-, hrest⟩ := cons_cons.mp h
  obtain ⟨ha, hb⟩ := List.nodup_cons.mp hnodup
  have hxa : x ≠ a := fun heq => hx (heq ▸ List.mem_cons_self)
  have hxb : x ≠ b := fun heq => hx (heq ▸ List.mem_cons_of_mem _ List.mem_cons_self)
  rw [cons_cons, cons_cons]
  refine ⟨⟨Function.update_self .., Function.update_self ..⟩, ⟨?_, ?_⟩, ?_⟩
  · rw [Function.update_of_ne hxa, Function.update_self]
  · rw [Function.update_of_ne (Ne.symm hxb), Function.update_self]
  · -- in the rest only the pointer back from its first cell has changed
    apply congr _ _ hrest
    · intro p hp
      have hpx : p ≠ x := fun heq => hx (heq ▸ List.mem_cons_of_mem _ hp)
      have hpa : p ≠ a := fun heq => ha (heq ▸ hp)
      rw [Function.update_of_ne hpa, Function.update_of_ne hpx]
    · intro p hp
      have hpx : p ≠ x := fun heq =>
        hx (heq ▸ List.mem_cons_of_mem _ (List.mem_cons_of_mem _ hp))
      have hpb : p ≠ b := fun heq => (List.nodup_cons.mp hb).1 (heq ▸ hp)
      rw [Function.update_of_ne hpx, Function.update_of_ne hpb]

/-- The cell before the last one taken out. -/
theorem remove (h : Linked next prev (l ++ [a, x, c])) (hnodup : (l ++ [a, x, c]).Nodup) :
    Linked (Function.update next a c) (Function.update prev c a) (l ++ [a, c]) := by
  obtain ⟨-, hcells, hapart⟩ := List.nodup_append.mp hnodup
  have hpa : ∀ p ∈ l, p ≠ a := fun p hp => hapart p hp a (by simp)
  have hpc : ∀ p ∈ l, p ≠ c := fun p hp => hapart p hp c (by simp)
  have hac : a ≠ c := fun heq => (List.nodup_cons.mp hcells).1 (by simp [heq])
  obtain ⟨hl, -, hjoin⟩ := List.isChain_append.mp (List.isChain_append_cons_cons.mp h).1
  refine append_pair.mpr ⟨?_, Function.update_self .., Function.update_self ..⟩
  refine List.isChain_append.mpr ⟨congr ?_ ?_ hl, List.isChain_singleton a, ?_⟩
  · intro p hp
    exact Function.update_of_ne (hpa p hp) ..
  · intro p hp
    exact Function.update_of_ne (hpc p (List.mem_of_mem_tail hp)) ..
  · intro p hp q hq
    obtain ⟨hpq, hqp⟩ := hjoin p hp q hq
    obtain rfl : a = q := Option.some_inj.mp hq
    rw [Function.update_of_ne (hpa p (List.mem_of_getLast? hp)), Function.update_of_ne hac]
    exact ⟨hpq, hqp⟩

end Linked

end Lib
