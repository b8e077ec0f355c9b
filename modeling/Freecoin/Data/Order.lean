import Freecoin.Data.Limbo
import Freecoin.Data.Trace

/-!
# The order of a limbo scan

A scan is to work through the levels above the chain from the highest down,
and it stops at the first level that is not above the chain. The cursor runs
down the keys as byte strings, and a key is a height as it lies in memory: on
a little-endian host the lowest byte decides first. `KeysInOrder` says that
for the levels at hand this makes no difference.

A reorganisation on the way only adds levels (`LimboGrows`), so it cannot
repair an order that is wrong.
-/

namespace Freecoin

open Lib Relation

variable (env : Env .passed)

/-- There is a record for height `h`. -/
def HasLevel (dbs : Dbs) (h : UInt32) : Prop :=
  (dbs.limbo.lookup (hostBytes32 env.host h)).isSome = true

/-- Every limbo record is filed under a height and fits the buffer. -/
def LimboKeyed (dbs : Dbs) : Prop :=
  ∀ key r, dbs.limbo.lookup key = some r →
    (∃ h, key = hostBytes32 env.host h) ∧ r.length ≤ limboBufferSize env

/-- The scan stops, and before that it has come to every level above the chain, in
strictly decreasing order. -/
def ScansInOrder (u : ScanMem) (dbs : Dbs) : Prop :=
  ∃ fuel out, dataLimboScan env u fuel dbs = .ok out ∧
    ((limboScanVisits env u fuel dbs).map LevelVisit.height).Pairwise (· > ·) ∧
    ∀ h, HasLevel env dbs h → dataChainGetHeight env u.height dbs < h →
      h ∈ (limboScanVisits env u fuel dbs).map LevelVisit.height

/-- Below a level above the chain come only levels whose keys come before its own. -/
def KeysInOrder (currHeight : UInt32) (dbs : Dbs) : Prop :=
  ∀ a b, HasLevel env dbs a → HasLevel env dbs b → currHeight < a → b < a →
    hostBytes32 env.host b < hostBytes32 env.host a

/-- Levels are kept, and records still fit. -/
structure LimboGrows (s s' : Dbs) : Prop where
  keyed : LimboKeyed env s → LimboKeyed env s'
  kept : ∀ h, HasLevel env s h → HasLevel env s' h

variable {env}

theorem hostWord32_load (o : ByteOrder) (m : Mem) (h : UInt32) :
    hostWord32 o (m.load (hostBytes32 o h)) = h := by
  obtain ⟨b₃, b₂, b₁, b₀, hb, -⟩ := bytes32_digits h
  have hword := word32_bytes32 hb
  cases o with
  | big =>
      rw [hostWord32, hostBytes32, hb]
      exact hword
  | little =>
      rw [hostWord32, hostBytes32, hb]
      exact hword

/-! ## Reorganisations only add levels -/

theorem limboRecord_length {edit : Arr → Bytes → Arr} {buffer : Mem} {hash : Bytes}
    {old : Option Bytes} (h : ∀ r, old = some r → r.length ≤ limboBufferSize env) :
    (limboRecord env edit buffer hash old).length ≤ limboBufferSize env := by
  unfold limboRecord
  rw [Mem.slice_length]
  cases old with
  | none => exact Nat.le_refl _
  | some r =>
      dsimp only
      split
      · exact Nat.le_refl _
      · exact h r rfl

theorem dataLimboEdit_grows (edit : Arr → Bytes → Arr) (buffer : Mem) (s : Dbs) (block : Mem) :
    LimboGrows env s (dataLimboEdit env edit buffer s block) := by
  rw [dataLimboEdit_passed]
  refine ⟨?_, ?_⟩
  · intro hkeyed key r hr
    dsimp only at hr
    by_cases hkey : key = hostBytes32 env.host (blockGetHeight env.host block)
    · subst hkey
      rw [AList.lookup_insert] at hr
      cases hr
      exact ⟨⟨_, rfl⟩, limboRecord_length fun r hr => (hkeyed _ r hr).2⟩
    · rw [AList.lookup_insert_ne hkey] at hr
      exact hkeyed key r hr
  · intro h hlevel
    unfold HasLevel at hlevel ⊢
    dsimp only
    by_cases hkey : hostBytes32 env.host h = hostBytes32 env.host (blockGetHeight env.host block)
    · rw [hkey, AList.lookup_insert]
      rfl
    · rw [AList.lookup_insert_ne hkey]
      exact hlevel

theorem RevertEdit.limbo_grows {u : RevertMem} {blocks : Db} {s s' : Dbs}
    (h : RevertEdit env u blocks s s') : LimboGrows env s s' := by
  cases h with
  | limboAdd i _ => exact dataLimboEdit_grows _ _ s _
  | limboDel k _ => exact dataLimboEdit_grows _ _ s _
  | chainSafeSet k _ =>
      obtain ⟨chain, hset⟩ := dataChainSafeSet_frame env (u.chainHeader k) s _
      rw [hset]
      exact ⟨id, fun _ => id⟩
  | _ => exact ⟨id, fun _ => id⟩

theorem edits_limbo_grow {u : RevertMem} {blocks : Db} {s s' : Dbs}
    (h : ReflTransGen (RevertEdit env u blocks) s s') : LimboGrows env s s' := by
  refine run_invariant (P := fun t => LimboGrows env s t) ?_ h ⟨id, fun _ => id⟩
  intro t t' hedit hgrown
  have hstep := hedit.limbo_grows
  exact ⟨fun hs => hstep.keyed (hgrown.keyed hs), fun x hx => hstep.kept x (hgrown.kept x hx)⟩

theorem scanLevel_limbo_grows {u : RevertMem} {fuel : ℕ} {above : UInt32} {buffer : Mem}
    {s s' : ScanState} (h : scanLevel env u fuel above buffer s = .ok s') :
    LimboGrows env s.dbs s'.dbs :=
  edits_limbo_grow (foldlM_scanHash_edits h rfl)

/-! ## A wrong order shows -/

/-- A level is not reached in decreasing order past a lower level with a larger key. -/
theorem scanVisits_not_past {u : RevertMem} {fuel : ℕ} {currHeight a b : UInt32} (hba : b < a)
    (hkeys : hostBytes32 env.host a < hostBytes32 env.host b) {n : ℕ} :
    ∀ {pos : Option Bytes} {index buffer : Mem} {s : ScanState},
      LimboKeyed env s.dbs → HasLevel env s.dbs b → Ahead pos (hostBytes32 env.host b) →
      ((scanVisits env u fuel currHeight n pos index buffer s).map LevelVisit.height).Pairwise
        (· > ·) →
      a ∉ (scanVisits env u fuel currHeight n pos index buffer s).map LevelVisit.height := by
  induction n with
  | zero => intro pos index buffer s _ _ _ _; exact List.not_mem_nil
  | succ n ih =>
      intro pos index buffer s hkeyed hlevel hahead hpair
      rcases scanVisits_cases env u fuel currHeight n pos index buffer s with
        hnil | ⟨key, record, rest, hprev, _, hcons, hrest⟩
      · rw [hnil]
        exact List.not_mem_nil
      · rcases dbPrev_spec s.dbs.limbo pos with ⟨hnone, _⟩ | ⟨key', r', hsome, hr, _, hmax⟩
        · rw [hprev] at hnone
          cases hnone
        · obtain ⟨rfl, rfl⟩ := Prod.mk.inj (Option.some_inj.mp (hprev.symm.trans hsome))
          obtain ⟨⟨h, rfl⟩, _⟩ := hkeyed key record hr
          have hle := hmax _ hahead hlevel
          rw [hcons, List.map_cons, hostWord32_load] at hpair ⊢
          obtain ⟨hhead, htail⟩ := List.pairwise_cons.mp hpair
          intro hmem
          rcases List.mem_cons.mp hmem with rfl | hmem
          · exact List.not_lt.mpr hle hkeys
          · by_cases hhb : h = b
            · subst hhb
              exact UInt32.lt_irrefl _ (UInt32.lt_trans hba (hhead a hmem))
            · rcases hrest with rfl | ⟨mid, hmid, rfl⟩
              · exact absurd hmem List.not_mem_nil
              · have hgrown := scanLevel_limbo_grows hmid
                have hlt : hostBytes32 env.host b < hostBytes32 env.host h := by
                  rcases List.le_iff_lt_or_eq.mp hle with hlt | heq
                  · exact hlt
                  · exact absurd (hostBytes32_injective _ heq).symm hhb
                exact ih (hgrown.keyed hkeyed) (hgrown.kept b hlevel)
                  (fun p hp => Option.some_inj.mp hp ▸ hlt) htail hmem

/-! ## The right order is followed -/

/-- A scan without reorganisation comes to the levels in front of the cursor, from
the highest down. -/
theorem scanVisits_in_order {dbs : Dbs} (hkeyed : LimboKeyed env dbs) {currHeight : UInt32}
    (hkeys : KeysInOrder env currHeight dbs) (u : RevertMem) (fuel : ℕ) {n : ℕ} :
    ∀ (pos : Option Bytes) (index buffer : Mem) (swapped : Bool) (sent : List Sent),
      (∀ hash ∈ limboHashes env currHeight dbs.limbo n pos index buffer,
        reorgsTo env dbs hash = false) →
      dbRemaining dbs.limbo pos < n →
      ((scanVisits env u fuel currHeight n pos index buffer ⟨dbs, swapped, sent⟩).map
        LevelVisit.height).Pairwise (· > ·) ∧
      ∀ h, h ∈ (scanVisits env u fuel currHeight n pos index buffer ⟨dbs, swapped, sent⟩).map
        LevelVisit.height ↔
          HasLevel env dbs h ∧ currHeight < h ∧ Ahead pos (hostBytes32 env.host h) := by
  induction n with
  | zero => intro pos index buffer swapped sent _ h; exact absurd h (Nat.not_lt_zero _)
  | succ n ih =>
      intro pos index buffer swapped sent hno hfuel
      rw [limboHashes] at hno
      rw [scanVisits]
      rcases dbPrev_spec dbs.limbo pos with ⟨hnone, habsent⟩ | ⟨key, r, hsome, hr, hahead, hmax⟩
      · rw [hnone]
        refine ⟨.nil, fun h => ⟨fun hmem => absurd hmem List.not_mem_nil, ?_⟩⟩
        rintro ⟨hlevel, _, hfront⟩
        rw [HasLevel, habsent _ hfront] at hlevel
        exact absurd hlevel Bool.false_ne_true
      · obtain ⟨⟨top, rfl⟩, hfit⟩ := hkeyed key r hr
        have hfits : (Bdb.passed.fits (newDbt index 4) (hostBytes32 env.host top).length &&
            Bdb.passed.fits (newDbt buffer (limboBufferSize env)) r.length) = true := by
          rw [hostBytes32_length]
          simpa [Bdb.passed, newDbt] using hfit
        have hless : dbRemaining dbs.limbo (some (hostBytes32 env.host top)) <
            dbRemaining dbs.limbo pos := dbPrev_remaining hsome
        have htop : HasLevel env dbs top := by rw [HasLevel, hr]; rfl
        -- in front of the cursor, a higher level would have a larger key
        have hlower : ∀ h, HasLevel env dbs h → currHeight < h →
            Ahead pos (hostBytes32 env.host h) → h ≤ top := by
          intro h hlevel hhigh hfront
          by_contra hgt
          have hlt := hkeys h top hlevel htop hhigh (UInt32.not_le.mp hgt)
          exact List.not_lt.mpr (hmax _ hfront hlevel) hlt
        rw [hsome] at hno ⊢
        dsimp only at hno ⊢
        rw [if_pos hfits, hostWord32_load] at hno ⊢
        by_cases hlow : top ≤ currHeight
        · rw [if_pos hlow]
          refine ⟨.nil, fun h => ⟨fun hmem => absurd hmem List.not_mem_nil, ?_⟩⟩
          rintro ⟨hlevel, hhigh, hfront⟩
          have hle := UInt32.le_trans (hlower h hlevel hhigh hfront) hlow
          exact absurd hhigh (UInt32.not_lt.mpr hle)
        · rw [if_neg hlow] at hno
          obtain ⟨sent', hlevel⟩ := scanLevel_quiet hno u fuel (top - currHeight) swapped sent
          obtain ⟨hpair, hmem⟩ := ih (some (hostBytes32 env.host top))
            (index.load (hostBytes32 env.host top)) (buffer.load r) swapped sent'
            (fun hash hin => hno hash (List.mem_append_right _ hin))
            (hless.trans_le (Nat.lt_succ_iff.mp hfuel))
          rw [if_neg hlow, hlevel]
          dsimp only
          rw [List.map_cons]
          refine ⟨List.pairwise_cons.mpr ⟨?_, hpair⟩, ?_⟩
          · intro h hh
            obtain ⟨hhas, hhigh, hfront⟩ := (hmem h).mp hh
            have hkey := hfront _ rfl
            have hfront' : Ahead pos (hostBytes32 env.host h) := fun p hp =>
              List.lt_trans hkey (hahead p hp)
            have hne : h ≠ top := by
              rintro rfl
              exact List.lt_irrefl _ hkey
            exact UInt32.lt_of_le_of_ne (hlower h hhas hhigh hfront') hne
          · intro h
            rw [List.mem_cons, hmem]
            constructor
            · rintro (rfl | ⟨hhas, hhigh, hfront⟩)
              · exact ⟨htop, UInt32.not_le.mp hlow, hahead⟩
              · exact ⟨hhas, hhigh, fun p hp => List.lt_trans (hfront _ rfl) (hahead p hp)⟩
            · rintro ⟨hhas, hhigh, hfront⟩
              rcases List.le_iff_lt_or_eq.mp (hmax _ hfront hhas) with hlt | heq
              · exact .inr ⟨hhas, hhigh, fun p hp => Option.some_inj.mp hp ▸ hlt⟩
              · exact .inl (hostBytes32_injective _ heq)

/-- **Scan order.** A scan that works through all levels above the chain from the
highest down is one whose keys are in order. If the keys are in order and no
hash that it meets starts a reorganisation, the scan does that. -/
theorem scan_in_order_iff (env : Env .passed) (u : ScanMem) (dbs : Dbs)
    (hkeyed : LimboKeyed env dbs) :
    (ScansInOrder env u dbs → KeysInOrder env (dataChainGetHeight env u.height dbs) dbs) ∧
    (NoReorg env u dbs → KeysInOrder env (dataChainGetHeight env u.height dbs) dbs →
      ScansInOrder env u dbs) := by
  have hstart : ∀ key, Ahead none key := fun key p hp => nomatch hp
  constructor
  · rintro ⟨fuel, out, _, hpair, hall⟩ a b ha hb hhigh hba
    by_contra hkeys
    have hle : hostBytes32 env.host a ≤ hostBytes32 env.host b := List.not_lt.mp hkeys
    rcases List.le_iff_lt_or_eq.mp hle with hlt | heq
    · exact scanVisits_not_past hba hlt hkeyed hb (hstart _) hpair (hall a ha hhigh)
    · exact UInt32.lt_irrefl _ (hostBytes32_injective _ heq ▸ hba)
  · intro hno hkeys
    obtain ⟨hpair, hmem⟩ := scanVisits_in_order hkeyed hkeys u.revert
      ((dbRecords dbs.limbo).length + 1) none u.index u.buffer false [] (hno.limboHashes _)
      (Nat.lt_succ_self _)
    rcases dataLimboScan_quiet hno ((dbRecords dbs.limbo).length + 1) with
      ⟨hshort, _⟩ | ⟨sent, hrun⟩
    · exact absurd hshort (Nat.not_succ_le_self _)
    · exact ⟨_, _, hrun, hpair, fun h hlevel hhigh => (hmem h).mpr ⟨hlevel, hhigh, hstart _⟩⟩

/-! ## Two limbos -/

theorem forkNode_limbo {key r : Bytes} (h : forkNode.limbo.lookup key = some r) :
    key = hostBytes32 .little 1 ∧ r = [1, 0, 0, 0] ++ childHash := by
  by_cases hkey : key = hostBytes32 .little 1
  · subst hkey
    exact ⟨rfl, Option.some_inj.mp (h.symm.trans (AList.lookup_insert _))⟩
  · have hnone : forkNode.limbo.lookup key = none := by
      rw [forkNode, AList.lookup_insert_ne hkey]
      rfl
    exact absurd (h.symm.trans hnone) (by simp)

/-- A single level is scanned in order. -/
theorem forkNode_scanned :
    LimboKeyed sampleEnv forkNode ∧
    ScansInOrder sampleEnv ⟨⟨0, fun _ => 0⟩, fun _ => 0, fun _ => 0, .zero⟩ forkNode := by
  have hkeyed : LimboKeyed sampleEnv forkNode := by
    intro key r hr
    obtain ⟨rfl, rfl⟩ := forkNode_limbo hr
    exact ⟨⟨1, rfl⟩, by decide⟩
  refine ⟨hkeyed, (scan_in_order_iff sampleEnv _ forkNode hkeyed).2 (fun _ _ => rfl) ?_⟩
  intro a b ha hb _ hba
  have hone : ∀ h, HasLevel sampleEnv forkNode h → h = 1 := by
    intro h hlevel
    obtain ⟨r, hr⟩ := Option.isSome_iff_exists.mp hlevel
    exact hostBytes32_injective _ (forkNode_limbo hr).1
  rw [hone a ha, hone b hb] at hba
  exact absurd hba (UInt32.lt_irrefl 1)

/-- A chain of height 0 and two empty limbo levels, of heights 1 and 256. -/
def twoLevelNode : Dbs :=
  { genesisNode with
    limbo := AList.insert (hostBytes32 .little 256) [0, 0, 0, 0]
      (AList.insert (hostBytes32 .little 1) [0, 0, 0, 0] ∅) }

/-- On a little-endian host 256 comes before 1. -/
theorem twoLevelNode_out_of_order :
    LimboKeyed sampleEnv twoLevelNode ∧
    ¬ ScansInOrder sampleEnv ⟨⟨0, fun _ => 0⟩, fun _ => 0, fun _ => 0, .zero⟩ twoLevelNode := by
  have hkeyed : LimboKeyed sampleEnv twoLevelNode := by
    intro key r hr
    have hmem : (key, r) ∈ dbRecords twoLevelNode.limbo := mem_dbRecords.mpr hr
    have hrecords : dbRecords twoLevelNode.limbo =
        [(hostBytes32 .little 256, [0, 0, 0, 0]), (hostBytes32 .little 1, [0, 0, 0, 0])] := by
      decide +kernel
    rw [hrecords] at hmem
    rcases List.mem_cons.mp hmem with heq | hmem
    · obtain ⟨rfl, rfl⟩ := Prod.mk.inj heq
      exact ⟨⟨256, rfl⟩, by decide⟩
    · obtain ⟨rfl, rfl⟩ := Prod.mk.inj (List.mem_singleton.mp hmem)
      exact ⟨⟨1, rfl⟩, by decide⟩
  refine ⟨hkeyed, ?_⟩
  rintro ⟨fuel, out, _, hpair, hall⟩
  have hheight : dataChainGetHeight sampleEnv ⟨0, fun _ => 0⟩ twoLevelNode = 0 :=
    genesisNode_height
  have hlevel : ∀ h, (twoLevelNode.limbo.lookup (hostBytes32 .little h)).isSome = true →
      HasLevel sampleEnv twoLevelNode h := fun _ hsome => hsome
  have hstart : Ahead none (hostBytes32 .little 1) := fun p hp => nomatch hp
  refine scanVisits_not_past (b := 1) (by decide) (by decide) hkeyed
    (hlevel 1 (by decide +kernel)) hstart hpair (hall 256 (hlevel 256 (by decide +kernel)) ?_)
  rw [hheight]
  decide

end Freecoin
