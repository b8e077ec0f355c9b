import Freecoin.Lib.HashLinks
import Freecoin.Lib.PairReduction
import Mathlib.Data.Nat.Log

/-!
# Hash trees over lists of any length

Reducing a list in pairs yields the root of a full binary tree. Its leaves are the list
with the last part of it repeated, as each level repeats a last element without a
neighbour. Lists with the same full tree have the same root. The other way round, two
lists with the same root have the same full tree unless a hash collision shows: two
different pairs are combined to the same value, or an element of one list is what the
other reduction has made of a pair.
-/

namespace Lib

variable {α β : Type}

/-! ## The full tree -/

/-- The leaves of the full tree of depth `d`. -/
def fullLeaves : {α : Type} → ℕ → List α → List α
  | _, 0, l => l
  | _, d + 1, l => (fullLeaves d (pairs l)).flatMap fun p => [p.1, p.2]

/-- The leaves of the tree over a list. -/
def fullTree (l : List α) : List α := fullLeaves (Nat.clog 2 l.length) l

theorem pairs_map (g : α → β) : ∀ l : List α, pairs (l.map g) = (pairs l).map (Prod.map g g)
  | [] => rfl
  | [_] => rfl
  | a :: b :: l => by
      rw [List.map_cons, List.map_cons, pairs, pairs, List.map_cons, pairs_map g l]
      rfl

theorem mem_of_mem_pairs {p : α × α} : ∀ {l : List α}, p ∈ pairs l → p.1 ∈ l ∧ p.2 ∈ l
  | [a], h => by
      rw [pairs, List.mem_singleton] at h
      subst h
      exact ⟨List.mem_singleton_self a, List.mem_singleton_self a⟩
  | a :: b :: l, h => by
      rw [pairs, List.mem_cons] at h
      rcases h with rfl | h
      · simp
      · obtain ⟨h₁, h₂⟩ := mem_of_mem_pairs h
        exact ⟨List.mem_cons_of_mem _ (List.mem_cons_of_mem _ h₁),
          List.mem_cons_of_mem _ (List.mem_cons_of_mem _ h₂)⟩

/-- The pairs of a list of pairs put end to end. -/
theorem pairs_flatMap : ∀ ps : List (α × α), pairs (ps.flatMap fun p => [p.1, p.2]) = ps
  | [] => rfl
  | p :: ps => by
      rw [List.flatMap_cons]
      exact congrArg (p :: ·) (pairs_flatMap ps)

theorem fullLeaves_map : ∀ (d : ℕ) {α β : Type} (g : α → β) (l : List α),
    fullLeaves d (l.map g) = (fullLeaves d l).map g := by
  intro d
  induction d with
  | zero => intro α β g l; rfl
  | succ d ih =>
      intro α β g l
      rw [fullLeaves, fullLeaves, pairs_map, ih, List.map_flatMap, List.flatMap_map]
      rfl

theorem mem_of_mem_fullLeaves : ∀ (d : ℕ) {α : Type} {l : List α} {a : α},
    a ∈ fullLeaves d l → a ∈ l := by
  intro d
  induction d with
  | zero => intro α l a h; exact h
  | succ d ih =>
      intro α l a h
      obtain ⟨p, hp, ha⟩ := List.mem_flatMap.mp h
      obtain ⟨h₁, h₂⟩ := mem_of_mem_pairs (ih hp)
      rcases List.mem_pair.mp ha with rfl | rfl
      · exact h₁
      · exact h₂

/-! ## Reductions by depth -/

section Reductions

variable {f : α × α → α}

/-- The list is reduced to `r` by `d` levels. -/
inductive ReducesIn (f : α × α → α) : ℕ → List α → α → Prop where
  | single (a : α) : ReducesIn f 0 [a] a
  | level {d : ℕ} {l : List α} {r : α} (hmore : 1 < l.length)
      (hup : ReducesIn f d (pairUp f l) r) : ReducesIn f (d + 1) l r

/-- The pairs combined in `d` levels. -/
def pairsIn (f : α × α → α) : ℕ → List α → List (α × α)
  | 0, _ => []
  | d + 1, l => pairs l ++ pairsIn f d (pairUp f l)

theorem reducesIn_of_reduce : ∀ (n : ℕ) {l : List α} {r : α}, reduce f n l = [r] →
    ∃ d, ReducesIn f d l r ∧ reducePairs f n l = pairsIn f d l := by
  intro n
  induction n with
  | zero =>
      intro l r h
      obtain rfl : l = [r] := h
      exact ⟨0, .single r, rfl⟩
  | succ n ih =>
      intro l r h
      rw [reduce] at h
      rw [reducePairs]
      by_cases hone : l.length ≤ 1
      · rw [if_pos hone] at h ⊢
        obtain rfl : l = [r] := h
        exact ⟨0, .single r, rfl⟩
      · rw [if_neg hone] at h ⊢
        obtain ⟨d, hd, hpairs⟩ := ih h
        exact ⟨d + 1, .level (Nat.not_le.mp hone) hd, congrArg (pairs l ++ ·) hpairs⟩

/-- The length of a list determines how many levels there are. -/
theorem ReducesIn.depth_eq {d : ℕ} {l : List α} {r : α} (h : ReducesIn f d l r) :
    d = Nat.clog 2 l.length := by
  induction h with
  | single a => rfl
  | @level d l r hmore _ ih =>
      rw [Nat.clog_of_two_le (by decide) hmore, ih, pairUp_length, Nat.add_succ_sub_one]

theorem ReducesIn.unique {d : ℕ} {l : List α} {r r' : α} (h : ReducesIn f d l r)
    (h' : ReducesIn f d l r') : r = r' := by
  induction h with
  | single a =>
      cases h'
      rfl
  | level _ _ ih =>
      cases h' with
      | level _ hup => exact ih hup

/-- A level of the full tree is the full tree of the level. -/
theorem pairUp_fullLeaves (d : ℕ) (l : List α) :
    pairUp f (fullLeaves (d + 1) l) = fullLeaves d (pairUp f l) := by
  rw [pairUp, pairUp, fullLeaves, pairs_flatMap, fullLeaves_map]

theorem ReducesIn.fullLeaves_length {d : ℕ} {l : List α} {r : α} (h : ReducesIn f d l r) :
    (fullLeaves d l).length = 2 ^ d := by
  induction h with
  | single a => rfl
  | @level d l r _ _ ih =>
      rw [pairUp, fullLeaves_map, List.length_map] at ih
      have htwo : (fullLeaves (d + 1) l).length = (fullLeaves d (pairs l)).length * 2 := by
        rw [fullLeaves, List.length_flatMap]
        simp
      rw [htwo, ih, pow_succ]

/-- The full tree has the same root. -/
theorem ReducesIn.full {d : ℕ} {l : List α} {r : α} (h : ReducesIn f d l r) :
    ReducesIn f d (fullLeaves d l) r := by
  induction h with
  | single a => exact .single a
  | @level d l r hmore hup ih =>
      have hlength := (ReducesIn.level hmore hup).fullLeaves_length
      refine .level ?_ ?_
      · rw [hlength]
        exact Nat.one_lt_two_pow (Nat.succ_ne_zero d)
      · rw [pairUp_fullLeaves]
        exact ih

/-! ## Equal roots -/

/-- Two reductions with the same number of levels. -/
theorem ReducesIn.same_depth {d : ℕ} : ∀ {l₁ l₂ : List α} {r : α}, ReducesIn f d l₁ r →
    ReducesIn f d l₂ r → fullLeaves d l₁ = fullLeaves d l₂ ∨
      Collides f (pairsIn f d l₁) (pairsIn f d l₂) := by
  induction d with
  | zero =>
      intro l₁ l₂ r h₁ h₂
      cases h₁
      cases h₂
      exact .inl rfl
  | succ d ih =>
      intro l₁ l₂ r h₁ h₂
      cases h₁ with
      | level _ hup₁ =>
          cases h₂ with
          | level _ hup₂ =>
              rcases ih hup₁ hup₂ with heq | ⟨p, hp, q, hq, hc⟩
              · -- the level below is where the two trees part, if they do
                rw [pairUp, pairUp, fullLeaves_map, fullLeaves_map] at heq
                rcases eq_or_collision f heq with hpairs | ⟨p, hp, q, hq, hc⟩
                · left
                  rw [fullLeaves, fullLeaves, hpairs]
                · right
                  exact ⟨p, List.mem_append_left _ (mem_of_mem_fullLeaves d hp), q,
                    List.mem_append_left _ (mem_of_mem_fullLeaves d hq), hc⟩
              · right
                exact ⟨p, List.mem_append_right _ hp, q, List.mem_append_right _ hq, hc⟩

/-- Going down a deeper tree as far as the other one goes, one comes to a level of
combined pairs. -/
theorem ReducesIn.level_above {d : ℕ} : ∀ (e : ℕ) {l : List α} {r : α},
    ReducesIn f (d + e + 1) l r → ∃ ps : List (α × α), ReducesIn f d (ps.map f) r ∧
      (∀ p ∈ ps, p ∈ pairsIn f (d + e + 1) l) ∧
      ∀ p ∈ pairsIn f d (ps.map f), p ∈ pairsIn f (d + e + 1) l := by
  intro e
  induction e with
  | zero =>
      intro l r h
      cases h with
      | level _ hup =>
          exact ⟨pairs l, hup, fun p hp => List.mem_append_left _ hp,
            fun p hp => List.mem_append_right _ hp⟩
  | succ e ih =>
      intro l r h
      cases h with
      | level _ hup =>
          obtain ⟨ps, hred, hps, hlater⟩ := ih hup
          exact ⟨ps, hred, fun p hp => List.mem_append_right _ (hps p hp),
            fun p hp => List.mem_append_right _ (hlater p hp)⟩

/-- An element of a list is what a reduction of the other list has made of a pair. -/
def Mixes (f : α × α → α) (l : List α) (ps : List (α × α)) : Prop := ∃ a ∈ l, ∃ p ∈ ps, f p = a

theorem ReducesIn.deeper {d d' : ℕ} {l₁ l₂ : List α} {r : α} (h₁ : ReducesIn f d l₁ r)
    (h₂ : ReducesIn f d' l₂ r) (hlt : d < d') :
    Collides f (pairsIn f d l₁) (pairsIn f d' l₂) ∨ Mixes f l₁ (pairsIn f d' l₂) := by
  obtain ⟨e, rfl⟩ := Nat.exists_eq_add_of_lt hlt
  obtain ⟨ps, hred, hps, hlater⟩ := h₂.level_above e
  rcases h₁.same_depth hred with heq | ⟨p, hp, q, hq, hc⟩
  · right
    have hlength := h₁.fullLeaves_length
    obtain ⟨a, ha⟩ := List.exists_mem_of_length_pos
      (show 0 < (fullLeaves d l₁).length by rw [hlength]; exact Nat.two_pow_pos d)
    have hmade := mem_of_mem_fullLeaves d (heq ▸ ha)
    obtain ⟨p, hp, hpa⟩ := List.mem_map.mp hmade
    exact ⟨a, mem_of_mem_fullLeaves d ha, p, hps p hp, hpa⟩
  · exact .inl ⟨p, hp, q, hlater q hq, hc⟩

/-- **Binding for any lengths.** Two lists with the same root have the same full tree, or
two different pairs are combined to the same value, or an element of one of them is a
combination of a pair in the other reduction. -/
theorem reduce_binds_fullTree {n₁ n₂ : ℕ} {l₁ l₂ : List α} {r : α} (h₁ : reduce f n₁ l₁ = [r])
    (h₂ : reduce f n₂ l₂ = [r]) :
    fullTree l₁ = fullTree l₂ ∨ Collides f (reducePairs f n₁ l₁) (reducePairs f n₂ l₂) ∨
    Mixes f l₁ (reducePairs f n₂ l₂) ∨ Mixes f l₂ (reducePairs f n₁ l₁) := by
  obtain ⟨d₁, hred₁, hpairs₁⟩ := reducesIn_of_reduce n₁ h₁
  obtain ⟨d₂, hred₂, hpairs₂⟩ := reducesIn_of_reduce n₂ h₂
  rw [hpairs₁, hpairs₂, fullTree, fullTree, ← hred₁.depth_eq, ← hred₂.depth_eq]
  rcases Nat.lt_trichotomy d₁ d₂ with hlt | rfl | hgt
  · rcases hred₁.deeper hred₂ hlt with hc | hmix
    · exact .inr (.inl hc)
    · exact .inr (.inr (.inl hmix))
  · rcases hred₁.same_depth hred₂ with heq | hc
    · exact .inl heq
    · exact .inr (.inl hc)
  · rcases hred₂.deeper hred₁ hgt with ⟨p, hp, q, hq, hne, hsame⟩ | hmix
    · exact .inr (.inl ⟨q, hq, p, hp, hne.symm, hsame.symm⟩)
    · exact .inr (.inr (.inr hmix))

/-- **Ambiguity.** Lists with the same full tree have the same root. -/
theorem reduce_of_fullTree {n₁ n₂ : ℕ} {l₁ l₂ : List α} {r₁ r₂ : α} (h₁ : reduce f n₁ l₁ = [r₁])
    (h₂ : reduce f n₂ l₂ = [r₂]) (htree : fullTree l₁ = fullTree l₂) : r₁ = r₂ := by
  obtain ⟨d₁, hred₁, -⟩ := reducesIn_of_reduce n₁ h₁
  obtain ⟨d₂, hred₂, -⟩ := reducesIn_of_reduce n₂ h₂
  rw [fullTree, fullTree, ← hred₁.depth_eq, ← hred₂.depth_eq] at htree
  have hpow : 2 ^ d₁ = 2 ^ d₂ := by
    rw [← hred₁.fullLeaves_length, ← hred₂.fullLeaves_length, htree]
  obtain rfl := Nat.pow_right_injective (Nat.le_refl 2) hpow
  have hfull := hred₁.full
  rw [htree] at hfull
  exact hfull.unique hred₂.full

end Reductions

end Lib
