import Freecoin.BignumValue
import Freecoin.Blockchain

/-!
# blockchain.c: the arithmetic of retargeting

Two differences of times decide `compute_next_target`: how long ago the latest
block was made, and how long the last interval took. Both are differences of
32-bit words, so a later time subtracted from an earlier one gives almost
`2 ^ 32` seconds.

The new target is the old one times the seconds that the interval took,
divided by 2. `big_div` being empty, the division is a parameter here, as are
the conversions of targets.
-/

namespace Freecoin

open Lib

/-! ## Elapsed time -/

/-- The testnet rule over the integers. -/
def IntTestnetRule (currTime blockTime : UInt32) : Prop :=
  currTime < testnetEpoch ∧
    (secondsIn20Minutes.toNat : ℤ) ≤ (currTime.toNat : ℤ) - (blockTime.toNat : ℤ)

/-- The bounded difference over the integers. -/
def intRecalcDiff (blockTime recalcBlockTime : UInt32) : ℤ :=
  max secondsInHalfWeek.toNat
    (min secondsIn8Weeks.toNat ((blockTime.toNat : ℤ) - (recalcBlockTime.toNat : ℤ)))

/-- A difference of words is the difference of the numbers, or that and `2 ^ 32`. -/
theorem sub_toNat_cases (x y : UInt32) :
    (y.toNat ≤ x.toNat ∧ (x - y).toNat = x.toNat - y.toNat) ∨
    (x.toNat < y.toNat ∧ (x - y).toNat = x.toNat + 2 ^ 32 - y.toNat) := by
  have hx := x.toNat_lt
  have hy := y.toNat_lt
  rw [UInt32.toNat_sub]
  omega

theorem testnetRule_iff_int (currTime blockTime : UInt32) :
    (TestnetRule currTime blockTime ↔ IntTestnetRule currTime blockTime) ↔
      blockTime ≤ currTime ∨ testnetEpoch ≤ currTime ∨
        currTime.toNat + 2 ^ 32 < blockTime.toNat + secondsIn20Minutes.toNat := by
  have hcurr := currTime.toNat_lt
  have hblock := blockTime.toNat_lt
  simp only [TestnetRule, IntTestnetRule, UInt32.le_iff_toNat_le, UInt32.lt_iff_toNat_lt]
  rw [show secondsIn20Minutes.toNat = 1200 from rfl, show testnetEpoch.toNat = 1483228800 from rfl]
  rcases sub_toNat_cases currTime blockTime with ⟨hle, hsub⟩ | ⟨hlt, hsub⟩
  · rw [hsub]
    omega
  · rw [hsub]
    omega

theorem recalcDiff_toNat (blockTime recalcBlockTime : UInt32) :
    (recalcDiff blockTime recalcBlockTime).toNat =
      max 5040 (min 80640 (blockTime - recalcBlockTime).toNat) := by
  rw [recalcDiff]
  generalize blockTime - recalcBlockTime = diff
  simp only [UInt32.lt_iff_toNat_lt]
  rw [show secondsIn8Weeks.toNat = 80640 from rfl, show secondsInHalfWeek.toNat = 5040 from rfl]
  split
  · rw [show secondsIn8Weeks.toNat = 80640 from rfl]
    omega
  · split
    · rw [show secondsInHalfWeek.toNat = 5040 from rfl]
      omega
    · omega

theorem recalcDiff_eq_int_iff (blockTime recalcBlockTime : UInt32) :
    ((recalcDiff blockTime recalcBlockTime).toNat : ℤ) = intRecalcDiff blockTime recalcBlockTime ↔
      recalcBlockTime ≤ blockTime ∨
        blockTime.toNat + 2 ^ 32 ≤ recalcBlockTime.toNat + secondsInHalfWeek.toNat := by
  have hblock := blockTime.toNat_lt
  have hrecalc := recalcBlockTime.toNat_lt
  rw [recalcDiff_toNat, intRecalcDiff, UInt32.le_iff_toNat_le,
    show secondsIn8Weeks.toNat = 80640 from rfl, show secondsInHalfWeek.toNat = 5040 from rfl]
  rcases sub_toNat_cases blockTime recalcBlockTime with ⟨hle, hsub⟩ | ⟨hlt, hsub⟩
  · rw [hsub]
    omega
  · rw [hsub]
    omega

/-- One second before the recalculation block is the longest interval. -/
theorem recalcDiff_monotone_iff (recalcBlockTime : UInt32) :
    (∀ t t', t ≤ t' → recalcDiff t recalcBlockTime ≤ recalcDiff t' recalcBlockTime) ↔
      recalcBlockTime = 0 := by
  have hrecalc := recalcBlockTime.toNat_lt
  constructor
  · intro hmono
    by_contra hne
    have hpos : 0 < recalcBlockTime.toNat := Nat.pos_of_ne_zero fun h => hne (UInt32.toNat_inj.mp h)
    have hone : (recalcBlockTime - 1).toNat = recalcBlockTime.toNat - 1 := by
      rw [UInt32.toNat_sub, show (1 : UInt32).toNat = 1 from rfl]
      omega
    have hle : recalcBlockTime - 1 ≤ recalcBlockTime := by
      rw [UInt32.le_iff_toNat_le]
      omega
    have hdiff := hmono _ _ hle
    rw [UInt32.le_iff_toNat_le, recalcDiff_toNat, recalcDiff_toNat] at hdiff
    rcases sub_toNat_cases (recalcBlockTime - 1) recalcBlockTime with ⟨h, -⟩ | ⟨-, hbefore⟩
    · omega
    · rcases sub_toNat_cases recalcBlockTime recalcBlockTime with ⟨-, hsame⟩ | ⟨h, -⟩
      · omega
      · omega
  · rintro rfl t t' ht
    rw [UInt32.le_iff_toNat_le] at ht ⊢
    rw [recalcDiff_toNat, recalcDiff_toNat, UInt32.sub_zero, UInt32.sub_zero]
    omega

/-- **Elapsed time.** The testnet rule is the rule over the integers if and only if the
block is not from the future, or the testnet is over, or the block is so far in
the future that the difference is small again. The bounded difference is that of
the integers if and only if the block is not older than the recalculation block,
or so much older that the difference is small again. It grows with the time of
the block if and only if the recalculation block is of time 0. -/
theorem elapsed_time_iff (currTime blockTime recalcBlockTime : UInt32) :
    ((TestnetRule currTime blockTime ↔ IntTestnetRule currTime blockTime) ↔
      blockTime ≤ currTime ∨ testnetEpoch ≤ currTime ∨
        currTime.toNat + 2 ^ 32 < blockTime.toNat + secondsIn20Minutes.toNat) ∧
    (((recalcDiff blockTime recalcBlockTime).toNat : ℤ) =
        intRecalcDiff blockTime recalcBlockTime ↔
      recalcBlockTime ≤ blockTime ∨
        blockTime.toNat + 2 ^ 32 ≤ recalcBlockTime.toNat + secondsInHalfWeek.toNat) ∧
    ((∀ t t', t ≤ t' → recalcDiff t recalcBlockTime ≤ recalcDiff t' recalcBlockTime) ↔
      recalcBlockTime = 0) :=
  ⟨testnetRule_iff_int currTime blockTime, recalcDiff_eq_int_iff blockTime recalcBlockTime,
    recalcDiff_monotone_iff recalcBlockTime⟩

/-- A block one second ahead of the clock fires the testnet rule, and an interval that
ends one second before it began counts as the longest one. -/
theorem elapsed_time_wraps :
    TestnetRule 1000000000 1000000001 ∧ recalcDiff 999999999 1000000000 = secondsIn8Weeks ∧
    ¬ ∀ currTime blockTime recalcBlockTime : UInt32,
      (TestnetRule currTime blockTime ↔ IntTestnetRule currTime blockTime) ∧
      ((recalcDiff blockTime recalcBlockTime).toNat : ℤ) =
        intRecalcDiff blockTime recalcBlockTime ∧
      ∀ t t', t ≤ t' → recalcDiff t recalcBlockTime ≤ recalcDiff t' recalcBlockTime := by
  have hfires : TestnetRule 1000000000 1000000001 := by decide
  refine ⟨hfires, by decide, ?_⟩
  intro hall
  have hint := (hall 1000000000 1000000001 0).1.mp hfires
  exact absurd hint.2 (by decide)

/-! ## The new target -/

@[simp] def blockSolutionInterval : UInt32 := 600

section Division

variable {B : Bdb} (div : Mem → Mem → Mem → Mem) (env : Env B) (fns : TargetFns)
  (currTime : UInt32) (u : TargetMem) (dbs : Dbs)

/-- `recalcTarget`, with another division. -/
def recalcTargetWith (blockTime blockHeight blockTarget : UInt32) : UInt32 :=
  let recalcBlock := recalcHeader env u dbs blockHeight
  let recalcBlockTime := btoui env.host (recalcBlock.shift posBlockTime)
  let diff := recalcDiff blockTime recalcBlockTime
  let etarget := fns.targetToEtarget blockTarget u.etarget
  let bigDiff := u.bigDiff.write 0 (uitob diff)
  let divisor := u.divisor.write 0 (uitob 2)
  let buffer1 := bigMult etarget sizeSha256 bigDiff sizeSha256 u.buffer1
  let buffer2 := div buffer1 divisor u.buffer2
  let buffer1 := buffer1.write 0 (List.replicate sizeSha256 0xff)
  if 0 < bigCompare buffer2 buffer1 sizeSha256 then
    fns.etargetToTarget (buffer1.slice 0 sizeSha256)
  else fns.etargetToTarget (buffer2.slice 0 sizeSha256)

/-- `computeNextTarget`, with another division. -/
def computeNextTargetWith (blockHash : Mem) : UInt32 :=
  let block := latestHeader B u dbs blockHash
  let blockTime := btoui env.host (block.shift posBlockTime)
  let blockHeight := btoui env.host (block.shift posBlockHeight)
  let blockTarget := btoui env.host (block.shift posBlockTarget)
  if TestnetRule currTime blockTime then 0
  else if RecalcRule blockHeight then
    recalcTargetWith div env fns u dbs blockTime blockHeight blockTarget
  else blockTarget

theorem computeNextTargetWith_bigDiv (blockHash : Mem) :
    computeNextTargetWith bigDiv env fns currTime u dbs blockHash =
      computeNextTarget env fns currTime u dbs blockHash := rfl

/-- The expanded target that is made of an expanded target and the seconds that the
interval took. -/
def nextEtarget (etarget : Mem) (diff : UInt32) : Bytes :=
  (div (bigMult etarget sizeSha256 (u.bigDiff.write 0 (uitob diff)) sizeSha256 u.buffer1)
    (u.divisor.write 0 (uitob 2)) u.buffer2).slice 0 sizeSha256

/-- The saturation is never reached. -/
theorem recalcTargetWith_eq (blockTime blockHeight blockTarget : UInt32) :
    recalcTargetWith div env fns u dbs blockTime blockHeight blockTarget =
      fns.etargetToTarget (nextEtarget div u (fns.targetToEtarget blockTarget u.etarget)
        (recalcDiff blockTime
          (btoui env.host ((recalcHeader env u dbs blockHeight).shift posBlockTime)))) := by
  unfold recalcTargetWith
  dsimp only
  rw [if_neg]
  · rfl
  · apply Int.not_lt.mpr
    apply bigCompareFrom_ones
    intro k hk
    apply Mem.write_in
    exact List.getElem?_replicate_of_lt hk

/-- The latest block ends an interval that took as long as it should, and the testnet
rule does not apply. -/
structure OnSchedule (blockHash : Mem) : Prop where
  testnet : ¬ TestnetRule currTime
    (btoui env.host ((latestHeader B u dbs blockHash).shift posBlockTime))
  recalc : RecalcRule (blockGetHeight env.host (latestHeader B u dbs blockHash))
  interval : btoui env.host ((latestHeader B u dbs blockHash).shift posBlockTime) -
      btoui env.host ((recalcHeader env u dbs
        (blockGetHeight env.host (latestHeader B u dbs blockHash))).shift posBlockTime) =
    recalcTargetInterval * blockSolutionInterval

/-- A day is longer than what `SECONDS_IN_8_WEEKS` stands for. -/
theorem computeNextTargetWith_onSchedule {blockHash : Mem}
    (h : OnSchedule env currTime u dbs blockHash) :
    computeNextTargetWith div env fns currTime u dbs blockHash =
      fns.etargetToTarget (nextEtarget div u
        (fns.targetToEtarget
          (btoui env.host ((latestHeader B u dbs blockHash).shift posBlockTarget)) u.etarget)
        secondsIn8Weeks) := by
  have hdiff : recalcDiff (btoui env.host ((latestHeader B u dbs blockHash).shift posBlockTime))
      (btoui env.host ((recalcHeader env u dbs
        (blockGetHeight env.host (latestHeader B u dbs blockHash))).shift posBlockTime)) =
      secondsIn8Weeks := by
    rw [recalcDiff, h.interval]
    rfl
  have hrecalc : RecalcRule
      (btoui env.host ((latestHeader B u dbs blockHash).shift posBlockHeight)) := h.recalc
  unfold computeNextTargetWith
  dsimp only
  rw [if_neg h.testnet, if_pos hrecalc, recalcTargetWith_eq]
  exact congrArg (fun diff => fns.etargetToTarget (nextEtarget div u _ diff)) hdiff

end Division

/-- The division leaves the quotient of a number of `width` bytes by one of four, as far
as `compute_next_target` looks at it. -/
structure ExactQuotient (width : ℕ) (div : Mem → Mem → Mem → Mem) : Prop where
  value : ∀ a b res, (div a b res).leValue 0 sizeSha256 =
    a.leValue 0 width / b.leValue 0 4 % 256 ^ sizeSha256

/-- `uitob` puts the most significant byte first, so 2 is read as `2 ^ 25`. -/
theorem leNat_nextEtarget {div : Mem → Mem → Mem → Mem} {width : ℕ} (hdiv : ExactQuotient width div)
    (hwidth : width ≤ 64) (u : TargetMem) (etarget : Mem) (diff : UInt32) :
    leNat (nextEtarget div u etarget diff) =
      etarget.leValue 0 64 * (u.bigDiff.write 0 (uitob diff)).leValue 0 64 % 256 ^ width / 2 ^ 25 %
        256 ^ 32 := by
  have hdivisor : (u.divisor.write 0 (uitob 2)).leValue 0 4 = 2 ^ 25 := by
    rw [Mem.leValue, Mem.slice_write_of_length (uitob_length 2)]
    rfl
  have hproduct : (bigMult etarget 32 (u.bigDiff.write 0 (uitob diff)) 32 u.buffer1).leValue 0 64 =
      etarget.leValue 0 64 * (u.bigDiff.write 0 (uitob diff)).leValue 0 64 % 256 ^ 64 :=
    bigMult_value etarget (u.bigDiff.write 0 (uitob diff)) 32 32 u.buffer1
  have hdvd : 256 ^ width ∣ 256 ^ 64 := Nat.pow_dvd_pow 256 hwidth
  have hvalue := hdiv.value
    (bigMult etarget 32 (u.bigDiff.write 0 (uitob diff)) 32 u.buffer1)
    (u.divisor.write 0 (uitob 2)) u.buffer2
  rw [hdivisor, Mem.leValue_eq_mod _ 0 hwidth, hproduct, Nat.mod_mod_of_dvd _ hdvd] at hvalue
  exact hvalue

/-- The bytes behind the two factors are zero. -/
structure ZerosBehind (u : TargetMem) : Prop where
  etarget : ∀ i, 32 ≤ i → u.etarget i = 0
  bigDiff : ∀ i, 4 ≤ i → u.bigDiff i = 0

/-- The 8 weeks, as `big_mult` reads them. -/
theorem bigDiff_leValue {m : Mem} (h : ∀ i, 4 ≤ i → m i = 0) :
    (m.write 0 (uitob secondsIn8Weeks)).leValue 0 64 = 3866880 := by
  have hbytes : leNat (uitob secondsIn8Weeks) = 3866880 := by decide
  have hwrite := Mem.leValue_write m (uitob secondsIn8Weeks) 60
  rw [uitob_length, hbytes, Mem.leValue_of_zeros fun i _ => h (4 + i) (Nat.le_add_right 4 i),
    Nat.mul_zero, Nat.add_zero] at hwrite
  exact hwrite

theorem etarget_leValue (m : Mem) {etarget : Bytes} (hlength : etarget.length = 32) :
    (m.write 0 etarget).leValue 0 64 = leNat etarget + 256 ^ 32 * m.leValue 32 32 := by
  have hwrite := Mem.leValue_write m etarget 32
  rw [hlength] at hwrite
  exact hwrite

/-- Some inverse of an injective function tells other values apart. -/
theorem forall_inverse_iff {expand : UInt32 → Bytes} (hinj : Function.Injective expand)
    {bs : Bytes} {t : UInt32} :
    (∀ back : Bytes → UInt32, (∀ t, back (expand t) = t) → back bs = t) ↔ bs = expand t := by
  constructor
  · intro h
    have hback := h (Function.extend expand id fun _ => t + 1) fun t => hinj.extend_apply id _ t
    by_cases hrange : ∃ t', expand t' = bs
    · obtain ⟨t', rfl⟩ := hrange
      rw [hinj.extend_apply] at hback
      exact congrArg expand hback
    · rw [Function.extend_apply' _ _ _ hrange] at hback
      exact absurd hback (by simp)
  · rintro rfl back hback
    exact hback t

section Neutral

variable {B : Bdb} {div : Mem → Mem → Mem → Mem} {width : ℕ} (hdiv : ExactQuotient width div)
  (hwidth : 36 ≤ width ∧ width ≤ 64) {expand : UInt32 → Bytes}
  (hlength : ∀ t, (expand t).length = 32) (hinj : Function.Injective expand)

/-- The target of the latest block is returned, whatever the inverse of the expansion. -/
def Neutral (div : Mem → Mem → Mem → Mem) (expand : UInt32 → Bytes) (env : Env B)
    (currTime : UInt32) (u : TargetMem) (dbs : Dbs) (blockHash : Mem) : Prop :=
  ∀ back : Bytes → UInt32, (∀ t, back (expand t) = t) →
    computeNextTargetWith div env ⟨fun t m => m.write 0 (expand t), back⟩ currTime u dbs blockHash =
      btoui env.host ((latestHeader B u dbs blockHash).shift posBlockTarget)

include hinj in
theorem neutral_iff_nextEtarget {env : Env B} {currTime : UInt32} {u : TargetMem} {dbs : Dbs}
    {blockHash : Mem} (h : OnSchedule env currTime u dbs blockHash) :
    Neutral div expand env currTime u dbs blockHash ↔
      nextEtarget div u (u.etarget.write 0
        (expand (btoui env.host ((latestHeader B u dbs blockHash).shift posBlockTarget))))
          secondsIn8Weeks =
        expand (btoui env.host ((latestHeader B u dbs blockHash).shift posBlockTarget)) := by
  rw [← forall_inverse_iff hinj]
  simp only [Neutral, computeNextTargetWith_onSchedule div env _ currTime u dbs h]

theorem nextEtarget_length (div : Mem → Mem → Mem → Mem) (u : TargetMem) (etarget : Mem)
    (diff : UInt32) : (nextEtarget div u etarget diff).length = 32 := Mem.slice_length ..

include hdiv hwidth

/-- With zeros behind the factors the target shrinks, unless it is zero. -/
theorem nextEtarget_eq_iff {u : TargetMem} (hzeros : ZerosBehind u) {etarget : Bytes}
    (hbytes : etarget.length = 32) :
    nextEtarget div u (u.etarget.write 0 etarget) secondsIn8Weeks = etarget ↔
      leNat etarget = 0 := by
  have hvalue := leNat_nextEtarget hdiv hwidth.2 u (u.etarget.write 0 etarget) secondsIn8Weeks
  have hlt : leNat etarget < 256 ^ 32 := by
    rw [← hbytes]
    exact leNat_lt etarget
  have hfits : leNat etarget * 3866880 < 256 ^ width := by
    calc leNat etarget * 3866880 < 256 ^ 32 * 256 ^ 4 :=
          Nat.mul_lt_mul'' hlt (by norm_num)
      _ = 256 ^ 36 := by norm_num
      _ ≤ 256 ^ width := Nat.pow_le_pow_right (by norm_num) hwidth.1
  rw [etarget_leValue u.etarget hbytes, bigDiff_leValue hzeros.bigDiff,
    Mem.leValue_of_zeros fun i _ => hzeros.etarget (32 + i) (Nat.le_add_right 32 i),
    Nat.mul_zero, Nat.add_zero, Nat.mod_eq_of_lt hfits] at hvalue
  constructor
  · intro heq
    rw [heq] at hvalue
    omega
  · intro hzero
    apply leNat_inj
    · rw [nextEtarget_length, hbytes]
    · rw [hvalue, hzero, Nat.zero_mul, Nat.zero_div, Nat.zero_mod]

/-- With a one behind the etarget, zero becomes something else. -/
theorem nextEtarget_one_behind {u : TargetMem} (hone : u.etarget.leValue 32 32 = 1)
    (hzeros : ∀ i, 4 ≤ i → u.bigDiff i = 0) {etarget : Bytes} (hbytes : etarget.length = 32)
    (hzero : leNat etarget = 0) :
    nextEtarget div u (u.etarget.write 0 etarget) secondsIn8Weeks ≠ etarget := by
  have hvalue := leNat_nextEtarget hdiv hwidth.2 u (u.etarget.write 0 etarget) secondsIn8Weeks
  have hfits : 256 ^ 32 * 3866880 < 256 ^ width := by
    calc 256 ^ 32 * 3866880 < 256 ^ 36 := by norm_num
      _ ≤ 256 ^ width := Nat.pow_le_pow_right (by norm_num) hwidth.1
  rw [etarget_leValue u.etarget hbytes, bigDiff_leValue hzeros, hone, hzero, Nat.zero_add,
    Nat.mul_one, Nat.mod_eq_of_lt hfits] at hvalue
  intro heq
  rw [heq, hzero] at hvalue
  exact absurd hvalue (by norm_num)

include hlength hinj

/-- **An interval that took exactly as long as it should** does not leave the target
alone: there is always memory with which another one is returned, and where the
bytes behind the factors are zero the target stays if and only if its expansion
is zero. -/
theorem onSchedule_not_neutral (env : Env B) (currTime : UInt32) (u : TargetMem) (dbs : Dbs)
    (blockHash : Mem) (h : OnSchedule env currTime u dbs blockHash) :
    (¬ ∀ etarget bigDiff, Neutral div expand env currTime
      { u with etarget := etarget, bigDiff := bigDiff } dbs blockHash) ∧
    (ZerosBehind u → (Neutral div expand env currTime u dbs blockHash ↔
      leNat (expand (btoui env.host ((latestHeader B u dbs blockHash).shift posBlockTarget))) =
        0)) := by
  constructor
  · intro hall
    -- the headers are read into other buffers
    have hsame : ∀ etarget bigDiff, OnSchedule env currTime
        { u with etarget := etarget, bigDiff := bigDiff } dbs blockHash :=
      fun _ _ => ⟨h.testnet, h.recalc, h.interval⟩
    have hzeros : leNat (expand
        (btoui env.host ((latestHeader B u dbs blockHash).shift posBlockTarget))) = 0 := by
      have hneutral := hall (fun _ => 0) (fun _ => 0)
      rw [neutral_iff_nextEtarget hinj (hsame _ _)] at hneutral
      exact (nextEtarget_eq_iff hdiv hwidth ⟨fun _ _ => rfl, fun _ _ => rfl⟩ (hlength _)).mp
        hneutral
    have hone : Mem.leValue (fun i => if i = 32 then 1 else 0) 32 32 = 1 := by decide
    have hneutral := hall (fun i => if i = 32 then 1 else 0) (fun _ => 0)
    rw [neutral_iff_nextEtarget hinj (hsame _ _)] at hneutral
    exact nextEtarget_one_behind (u := { u with
      etarget := fun i => if i = 32 then 1 else 0
      bigDiff := fun _ => 0 }) hdiv hwidth hone (fun _ _ => rfl) (hlength _) hzeros hneutral
  · intro hzeros
    rw [neutral_iff_nextEtarget hinj h]
    exact nextEtarget_eq_iff hdiv hwidth hzeros (hlength _)

end Neutral

/-! ## A day of blocks -/

/-- The quotient of two numbers of which the first has `width` bytes. -/
def exactDiv (width : ℕ) (a b res : Mem) : Mem :=
  res.write 0 (leBytes 32 (a.leValue 0 width / b.leValue 0 4))

theorem exactDiv_exact (width : ℕ) : ExactQuotient width (exactDiv width) := by
  constructor
  intro a b res
  have hlength : (leBytes 32 (a.leValue 0 width / b.leValue 0 4)).length = sizeSha256 :=
    leBytes_length ..
  rw [Mem.leValue, exactDiv, Mem.slice_write_of_length hlength, leNat_leBytes]
  rfl

/-- An expansion of targets: their four bytes, followed by zeros. -/
def padded (t : UInt32) : Bytes := bytes32 t ++ List.replicate 28 0

theorem padded_injective : Function.Injective padded :=
  fun _ _ h => bytes32_injective (List.append_cancel_right h)

/-- A block of height 144 and target 1, made a day after `genesis`. -/
def dayRecord : Bytes :=
  [0, 0, 0x80, 0x51, 1, 0, 144, 0, 0, 0] ++ List.replicate 64 0 ++ [1] ++ List.replicate 8 0

def dayHash : Bytes := recordHash sampleEnv dayRecord

/-- The chain has `genesis` at height 0 and that block at height 144. -/
def dayNode : Dbs :=
  { genesisNode with
    blocks := genesisNode.blocks.insert dayHash dayRecord
    chain := genesisNode.chain.insert (hostBytes32 .little 144) dayHash }

theorem dayNode_header :
    latestHeader .passed zeroTargetMem dayNode (Mem.ofBytes dayHash) = Mem.ofBytes dayRecord := by
  have hkey : (Mem.ofBytes dayHash).slice 0 32 = dayHash :=
    slice_ofBytes (blockComputeHash_length ..)
  have hlookup : dayNode.blocks.lookup ((Mem.ofBytes dayHash).slice 0 32) = some dayRecord := by
    rw [hkey]
    exact AList.lookup_insert _
  exact latestHeader_of_lookup hlookup

theorem dayNode_onSchedule :
    OnSchedule sampleEnv testnetEpoch zeroTargetMem dayNode (Mem.ofBytes dayHash) := by
  constructor
  · exact fun h => UInt32.lt_irrefl _ h.1
  · rw [dayNode_header]
    decide
  · rw [dayNode_header]
    decide +kernel

theorem dayNode_target : btoui sampleEnv.host ((latestHeader .passed zeroTargetMem dayNode
    (Mem.ofBytes dayHash)).shift posBlockTarget) = 1 := by
  rw [dayNode_header]
  decide

/-- After that day the target is not 1 again. -/
theorem dayNode_not_neutral :
    OnSchedule sampleEnv testnetEpoch zeroTargetMem dayNode (Mem.ofBytes dayHash) ∧
    ¬ Neutral (exactDiv 64) padded sampleEnv testnetEpoch zeroTargetMem dayNode
      (Mem.ofBytes dayHash) := by
  refine ⟨dayNode_onSchedule, ?_⟩
  have hiff := (onSchedule_not_neutral (exactDiv_exact 64) ⟨by decide, by decide⟩ (fun _ => rfl)
    padded_injective sampleEnv testnetEpoch zeroTargetMem dayNode _ dayNode_onSchedule).2
    ⟨fun _ _ => rfl, fun _ _ => rfl⟩
  rw [hiff, dayNode_target]
  decide

/-- The four bytes back. -/
def unpadded (bs : Bytes) : UInt32 :=
  word32 (Mem.ofBytes bs 0) (Mem.ofBytes bs 1) (Mem.ofBytes bs 2) (Mem.ofBytes bs 3)

theorem unpadded_padded (t : UInt32) : unpadded (padded t) = t := word32_bytes32 rfl

/-- With an exact division and inverse conversions, the block that ends a day with
target 1 is followed by the target `0x80801d00`. -/
theorem day_changes_target :
    ¬ ∀ (div : Mem → Mem → Mem → Mem) (fns : TargetFns) (env : Env .passed) (currTime : UInt32)
      (u : TargetMem) (dbs : Dbs) (blockHash : Mem),
      ExactQuotient 64 div →
      (∀ t m, fns.etargetToTarget ((fns.targetToEtarget t m).slice 0 32) = t) →
      OnSchedule env currTime u dbs blockHash →
      computeNextTargetWith div env fns currTime u dbs blockHash =
        btoui env.host ((latestHeader .passed u dbs blockHash).shift posBlockTarget) := by
  intro hall
  have hinverse : ∀ (t : UInt32) (m : Mem), unpadded ((m.write 0 (padded t)).slice 0 32) = t := by
    intro t m
    rw [Mem.slice_write_of_length (show (padded t).length = 32 from rfl), unpadded_padded]
  have hsame := hall (exactDiv 64) ⟨fun t m => m.write 0 (padded t), unpadded⟩ sampleEnv
    testnetEpoch zeroTargetMem dayNode (Mem.ofBytes dayHash) (exactDiv_exact 64) hinverse
    dayNode_onSchedule
  rw [dayNode_target, computeNextTargetWith_onSchedule _ _ _ _ _ _ dayNode_onSchedule,
    dayNode_target] at hsame
  have hnext : nextEtarget (exactDiv 64) zeroTargetMem
      (zeroTargetMem.etarget.write 0 (padded 1)) secondsIn8Weeks = leBytes 32 0x1d8080 := by
    apply leNat_inj (nextEtarget_length ..)
    have hpadded : leNat (padded 1) = 2 ^ 24 := by decide
    have hdiff : (zeroTargetMem.bigDiff.write 0 (uitob secondsIn8Weeks)).leValue 0 64 = 3866880 :=
      bigDiff_leValue fun _ _ => rfl
    have hbehind : zeroTargetMem.etarget.leValue 32 32 = 0 := Mem.leValue_of_zeros fun _ _ => rfl
    rw [leNat_nextEtarget (exactDiv_exact 64) (Nat.le_refl 64), etarget_leValue _ rfl, hdiff,
      hbehind, hpadded, leNat_leBytes]
    norm_num
  dsimp only at hsame
  rw [hnext] at hsame
  exact absurd hsame (by decide)

end Freecoin
