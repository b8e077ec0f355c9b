import Freecoin.Crypto
import Freecoin.Lib.SecureHash

/-!
# crypto.c against the standard

`sha256_transform` is the compression function of the standard. A context
that has absorbed a message holds the hash value of the whole blocks so far,
the rest of the message in its buffer, and the number of bits of the whole
blocks in the two halves of `bitlen`. From this it follows that
`sha256_transform` is given the blocks of the padded message one after the
other, however the message was cut up, and that the state words end as the
hash value. What `sha256_final` then writes is another matter: it repeats the
low byte of each word four times.
-/

namespace Freecoin

open Lib

/-- The state words as a hash value. -/
def ShaState.value (s : ShaState) : SecureHash.HashValue :=
  ⟨s.a, s.b, s.c, s.d, s.e, s.f, s.g, s.h⟩

/-! ## The compression function -/

theorem shaWords_eq : ∀ (n : ℕ) {data : Bytes}, data.length = 4 * n →
    shaWords data = (List.range n).map (SecureHash.blockWord data) := by
  intro n
  induction n with
  | zero =>
      intro data h
      obtain rfl := List.length_eq_zero_iff.mp h
      rfl
  | succ n ih =>
      intro data h
      match data, h with
      | a :: b :: c :: d :: rest, h =>
          have hrest : rest.length = 4 * n := by
            simp only [List.length_cons] at h
            omega
          rw [shaWords, ih hrest, List.range_succ_eq_map, List.map_cons, List.map_map]
          rfl

/-- The loop that extends the schedule follows the recurrence. -/
theorem shaSchedule_eq (block : Bytes) : ∀ (n i : ℕ), 16 ≤ i →
    shaSchedule n ((List.range i).map (SecureHash.schedule block)) =
      (List.range (i + n)).map (SecureHash.schedule block) := by
  intro n
  induction n with
  | zero => intro i _; rfl
  | succ n ih =>
      intro i hi
      have hget : ∀ j, 0 < j → j ≤ i →
          ((List.range i).map (SecureHash.schedule block)).getD (i - j) 0 =
            SecureHash.schedule block (i - j) := by
        intro j hpos hj
        rw [List.getD_eq_getElem?_getD, List.getElem?_map,
          List.getElem?_range (show i - j < i by omega)]
        rfl
      have hnext : SecureHash.schedule block i =
          sig1 (SecureHash.schedule block (i - 2)) + SecureHash.schedule block (i - 7)
            + sig0 (SecureHash.schedule block (i - 15)) + SecureHash.schedule block (i - 16) := by
        rw [SecureHash.schedule, if_neg (Nat.not_lt.mpr hi)]
        rfl
      rw [shaSchedule, List.length_map, List.length_range, hget 2 (by omega) (by omega),
        hget 7 (by omega) (by omega), hget 15 (by omega) (by omega), hget 16 (by omega) hi,
        ← hnext, ← List.map_singleton (f := SecureHash.schedule block), ← List.map_append,
        ← List.range_succ, ih (i + 1) (by omega), Nat.add_assoc, Nat.add_comm 1 n]

theorem sha256K_eq : sha256K = (List.range 64).map SecureHash.roundConstant := by decide +kernel

theorem foldl_shaRound (block : Bytes) (s : ShaState) : ∀ n,
    (((List.range n).map fun t =>
      (SecureHash.roundConstant t, SecureHash.schedule block t)).foldl shaRound s).value =
      SecureHash.rounds block s.value n := by
  intro n
  induction n with
  | zero => rfl
  | succ n ih =>
      rw [List.range_succ, List.map_append, List.foldl_append, SecureHash.rounds, ← ih]
      rfl

/-- **`sha256_transform` is the compression function.** -/
theorem sha256Transform_value (s : ShaState) {block : Bytes} (h : block.length = 64) :
    (sha256Transform s block).value = SecureHash.compress s.value block := by
  have hwords : shaWords block = (List.range 16).map (SecureHash.schedule block) := by
    rw [shaWords_eq 16 h]
    refine List.map_congr_left fun t ht => ?_
    rw [SecureHash.schedule, if_pos (List.mem_range.mp ht)]
  have hzip : sha256K.zip (shaSchedule 48 (shaWords block)) =
      (List.range 64).map fun t =>
        (SecureHash.roundConstant t, SecureHash.schedule block t) := by
    rw [hwords, shaSchedule_eq block 48 16 (Nat.le_refl _), sha256K_eq, List.zip_map']
  have hrounds := foldl_shaRound block s 64
  rw [← hzip] at hrounds
  simp only [sha256Transform, SecureHash.compress, ← hrounds]
  -- the rounds must not be unfolded when the two sides are compared
  generalize (sha256K.zip (shaSchedule 48 (shaWords block))).foldl shaRound s = r
  rfl

theorem foldl_transform_value {blocks : List Bytes} (h : ∀ b ∈ blocks, b.length = 64) :
    ∀ s : ShaState, (blocks.foldl sha256Transform s).value =
      blocks.foldl SecureHash.compress s.value := by
  induction blocks with
  | nil => intro s; rfl
  | cons b blocks ih =>
      intro s
      obtain ⟨hb, hblocks⟩ := List.forall_mem_cons.mp h
      rw [List.foldl_cons, List.foldl_cons, ih hblocks, sha256Transform_value s hb]

theorem sha256Init_value (data : Bytes) : (sha256Init data).state.value = SecureHash.initial := by
  have hwords : (sha256Init data).state.value.words = SecureHash.initial.words := by
    show (sha256Init []).state.value.words = _
    decide +kernel
  simp only [SecureHash.HashValue.words, List.cons.injEq, and_true] at hwords
  obtain ⟨ha, hb, hc, hd, he, hf, hg, hh⟩ := hwords
  unfold ShaState.value SecureHash.initial
  rw [SecureHash.HashValue.mk.injEq]
  exact ⟨ha, hb, hc, hd, he, hf, hg, hh⟩

/-! ## The blocks given to sha256_transform -/

/-- By one byte of `sha256_update`. -/
def updateByteBlocks (ctx : ShaCtx) (b : UInt8) : List Bytes :=
  if ctx.datalen + 1 = 64 then [ctx.data.set ctx.datalen b] else []

/-- By a call of `sha256_update`. -/
def updateBlocks : ShaCtx → Bytes → List Bytes
  | _, [] => []
  | ctx, b :: rest => updateByteBlocks ctx b ++ updateBlocks (sha256UpdateByte ctx b) rest

/-- By a sequence of calls. -/
def chunkBlocks : ShaCtx → List Bytes → List Bytes
  | _, [] => []
  | ctx, chunk :: rest => updateBlocks ctx chunk ++ chunkBlocks (sha256Update ctx chunk) rest

/-- The context of `sha256_final` when the bit count is in place. -/
def finalCtx (ctx : ShaCtx) : ShaCtx := (sha256Pad ctx).addBits (UInt32.ofNat ctx.datalen * 8)

/-- The last block. -/
def closingBlock (ctx : ShaCtx) : Bytes :=
  (finalCtx ctx).data.take 56 ++ bytes32 (finalCtx ctx).bitlen1 ++ bytes32 (finalCtx ctx).bitlen0

/-- By `sha256_final`. -/
def finalBlocks (ctx : ShaCtx) : List Bytes :=
  if ctx.datalen < 56 then [closingBlock ctx]
  else [fillZero (64 - (ctx.datalen + 1)) (ctx.datalen + 1) (ctx.data.set ctx.datalen 0x80),
    closingBlock ctx]

/-- The state words when `sha256_final` comes to its last loop. -/
def finalState (ctx : ShaCtx) : ShaState := sha256Transform (finalCtx ctx).state (closingBlock ctx)

/-- What the last loop writes. -/
def ShaState.hashBytes (s : ShaState) : Bytes :=
  [s.a, s.b, s.c, s.d, s.e, s.f, s.g, s.h].flatMap fun w => List.replicate 4 w.toUInt8

theorem sha256Final_eq (ctx : ShaCtx) : sha256Final ctx = (finalState ctx).hashBytes := rfl

theorem finalState_eq (ctx : ShaCtx) :
    finalState ctx = (finalBlocks ctx).foldl sha256Transform ctx.state := by
  unfold finalState finalBlocks
  have hstate : (finalCtx ctx).state = (sha256Pad ctx).state := rfl
  rw [hstate, sha256Pad]
  dsimp only
  split
  · rfl
  · rfl

/-! Cutting a message into chunks makes no difference to the calls for its bytes. -/

theorem foldl_sha256Update : ∀ (chunks : List Bytes) (ctx : ShaCtx),
    chunks.foldl sha256Update ctx = sha256Update ctx chunks.flatten := by
  intro chunks ctx
  unfold sha256Update
  rw [List.foldl_flatten]

theorem updateBlocks_append : ∀ (data data' : Bytes) (ctx : ShaCtx),
    updateBlocks ctx (data ++ data') =
      updateBlocks ctx data ++ updateBlocks (sha256Update ctx data) data' := by
  intro data data'
  induction data with
  | nil => intro ctx; rfl
  | cons b rest ih =>
      intro ctx
      rw [List.cons_append, updateBlocks, updateBlocks, ih, List.append_assoc]
      rfl

theorem chunkBlocks_eq : ∀ (chunks : List Bytes) (ctx : ShaCtx),
    chunkBlocks ctx chunks = updateBlocks ctx chunks.flatten := by
  intro chunks
  induction chunks with
  | nil => intro ctx; rfl
  | cons chunk rest ih =>
      intro ctx
      rw [chunkBlocks, ih, List.flatten_cons, updateBlocks_append]

/-! ## The bit count -/

/-- The number of bits in the two halves of `bitlen`. -/
def ShaCtx.bits (ctx : ShaCtx) : ℕ := ctx.bitlen1.toNat * 2 ^ 32 + ctx.bitlen0.toNat

/-- The carry goes from the low half to the high one. -/
theorem ShaCtx.bits_addBits (ctx : ShaCtx) (c : UInt32) (h : ctx.bits + c.toNat < 2 ^ 64) :
    (ctx.addBits c).bits = ctx.bits + c.toNat := by
  have hc := c.toNat_lt
  have hlow := ctx.bitlen0.toNat_lt
  have hrest : (0xffffffff - c).toNat = 2 ^ 32 - 1 - c.toNat :=
    UInt32.toNat_sub_of_le _ _ (UInt32.le_iff_toNat_le.mpr (Nat.le_of_lt_succ hc))
  unfold ShaCtx.bits at h ⊢
  simp only [ShaCtx.addBits, UInt32.lt_iff_toNat_lt, hrest, UInt32.toNat_add]
  split
  · have hone : (1 : UInt32).toNat = 1 := rfl
    rw [UInt32.toNat_add, hone]
    omega
  · omega

/-! ## What a context has absorbed -/

theorem set_take_append {data : Bytes} {i : ℕ} (hi : i < data.length) (b : UInt8) :
    (data.set i b).take (i + 1) = data.take i ++ [b] := by
  rw [List.set_eq_take_append_cons_drop, if_pos hi, List.append_cons]
  exact List.take_left' (by simp; omega)

theorem fillZero_eq : ∀ (n i : ℕ) {data : Bytes}, i + n ≤ data.length →
    fillZero n i data = data.take i ++ List.replicate n 0 ++ data.drop (i + n) := by
  intro n
  induction n with
  | zero =>
      intro i data _
      rw [fillZero, List.replicate_zero, List.append_nil, Nat.add_zero, List.take_append_drop]
  | succ n ih =>
      intro i data h
      have hset : (data.set i 0).drop (i + 1 + n) = data.drop (i + (n + 1)) := by
        rw [List.drop_set_of_lt (by omega), Nat.add_assoc, Nat.add_comm 1 n]
      rw [fillZero, ih (i + 1) (by rw [List.length_set]; omega), set_take_append (by omega), hset,
        List.replicate_succ]
      simp only [List.append_assoc, List.cons_append, List.nil_append]

/-- The context has absorbed the whole blocks `done` and then `rest`. -/
structure Absorbed (ctx : ShaCtx) (done : List Bytes) (rest : Bytes) : Prop where
  room : ctx.data.length = 64
  datalen : ctx.datalen = rest.length
  short : rest.length < 64
  pending : ctx.data.take rest.length = rest
  full : ∀ b ∈ done, b.length = 64
  bits : ctx.bits = 512 * done.length
  state : ctx.state.value = done.foldl SecureHash.compress SecureHash.initial

theorem absorbed_init {data : Bytes} (h : data.length = 64) : Absorbed (sha256Init data) [] [] where
  room := h
  datalen := rfl
  short := by decide
  pending := rfl
  full := fun b hb => absurd hb List.not_mem_nil
  bits := by simp [ShaCtx.bits, sha256Init]
  state := sha256Init_value data

section Absorb

variable {ctx : ShaCtx} {done : List Bytes} {rest : Bytes}

/-- One byte goes to the buffer, or makes it a whole block. -/
theorem Absorbed.byte (h : Absorbed ctx done rest) (hlen : done.length < 2 ^ 32) (b : UInt8) :
    (updateByteBlocks ctx b = [] ∧ Absorbed (sha256UpdateByte ctx b) done (rest ++ [b])) ∨
    (updateByteBlocks ctx b = [rest ++ [b]] ∧
      Absorbed (sha256UpdateByte ctx b) (done ++ [rest ++ [b]]) []) := by
  have hshort := h.short
  have htake : (ctx.data.set ctx.datalen b).take (rest.length + 1) = rest ++ [b] := by
    rw [h.datalen, set_take_append (by rw [h.room]; exact hshort), h.pending]
  unfold updateByteBlocks sha256UpdateByte
  dsimp only
  by_cases hwhole : ctx.datalen + 1 = 64
  · have hblock : ctx.data.set ctx.datalen b = rest ++ [b] := by
      rw [← htake, ← h.datalen, hwhole]
      exact (List.take_of_length_le (by rw [List.length_set, h.room])).symm
    have hfull : (rest ++ [b]).length = 64 := by
      rw [List.length_append, List.length_singleton, ← h.datalen, hwhole]
    rw [if_pos hwhole, if_pos hwhole]
    refine .inr ⟨by rw [hblock], ?_, rfl, by decide, rfl, ?_, ?_, ?_⟩
    · exact (List.length_set ..).trans h.room
    · intro b' hb'
      rcases List.mem_append.mp hb' with hb' | hb'
      · exact h.full b' hb'
      · rw [List.mem_singleton.mp hb']
        exact hfull
    · rw [ShaCtx.bits_addBits]
      · have hbits := h.bits
        unfold ShaCtx.bits at hbits ⊢
        rw [hbits, List.length_append, List.length_singleton]
        show _ + 512 = _
        omega
      · have hbits := h.bits
        unfold ShaCtx.bits at hbits ⊢
        rw [hbits]
        show _ + 512 < _
        omega
    · rw [List.foldl_append, ← h.state, hblock]
      exact sha256Transform_value ctx.state hfull
  · rw [if_neg hwhole, if_neg hwhole]
    have hlength : (rest ++ [b]).length = rest.length + 1 := by
      rw [List.length_append, List.length_singleton]
    refine .inl ⟨rfl, ?_, ?_, ?_, ?_, h.full, h.bits, h.state⟩
    · exact (List.length_set ..).trans h.room
    · rw [hlength]
      exact congrArg (· + 1) h.datalen
    · have hne : rest.length + 1 ≠ 64 := h.datalen ▸ hwhole
      omega
    · rw [hlength]
      exact htake

/-- A call, or a sequence of calls. -/
theorem Absorbed.update : ∀ (m : Bytes) {ctx : ShaCtx} {done : List Bytes} {rest : Bytes},
    Absorbed ctx done rest → (done.flatten ++ rest ++ m).length < 2 ^ 32 →
      ∃ rest', (done ++ updateBlocks ctx m).flatten ++ rest' = done.flatten ++ rest ++ m ∧
        Absorbed (sha256Update ctx m) (done ++ updateBlocks ctx m) rest' := by
  intro m
  induction m with
  | nil =>
      intro ctx done rest h _
      refine ⟨rest, ?_, ?_⟩
      · rw [updateBlocks, List.append_nil, List.append_nil]
      · rw [updateBlocks, List.append_nil]
        exact h
  | cons b m ih =>
      intro ctx done rest h hlen
      have hdone : done.length < 2 ^ 32 := by
        rw [List.length_append, SecureHash.message_length h.full] at hlen
        omega
      have hsplit : done.flatten ++ rest ++ b :: m = done.flatten ++ (rest ++ [b]) ++ m := by
        simp only [List.append_assoc, List.cons_append, List.nil_append]
      have hupdate : sha256Update ctx (b :: m) = sha256Update (sha256UpdateByte ctx b) m := rfl
      rw [hsplit] at hlen ⊢
      rw [updateBlocks, hupdate, ← List.append_assoc]
      rcases h.byte hdone b with ⟨hblocks, hnext⟩ | ⟨hblocks, hnext⟩
      · rw [hblocks, List.append_nil]
        exact ih hnext hlen
      · have hflatten : (done ++ [rest ++ [b]]).flatten ++ [] = done.flatten ++ (rest ++ [b]) := by
          rw [List.append_nil, List.flatten_append, List.flatten_singleton]
        rw [hblocks, ← hflatten]
        rw [← hflatten] at hlen
        exact ih hnext hlen

/-- The last block holds the length of the message in bits. -/
theorem Absorbed.closingBlock_eq (h : Absorbed ctx done rest)
    (hlen : (done.flatten ++ rest).length < 2 ^ 32) :
    closingBlock ctx = (sha256Pad ctx).data.take 56 ++
      SecureHash.bytes64 (8 * (done.flatten ++ rest).length) := by
  have hmessage : (done.flatten ++ rest).length = 64 * done.length + rest.length :=
    SecureHash.message_length h.full
  have hshort := h.short
  have hhigh : (sha256Pad ctx).bitlen1 = ctx.bitlen1 := by
    unfold sha256Pad
    split <;> rfl
  have hlow : (sha256Pad ctx).bitlen0 = ctx.bitlen0 := by
    unfold sha256Pad
    split <;> rfl
  have hpad : (sha256Pad ctx).bits = ctx.bits := by
    rw [ShaCtx.bits, hhigh, hlow, ShaCtx.bits]
  have hrest : (UInt32.ofNat ctx.datalen * 8).toNat = 8 * rest.length := by
    have height : (8 : UInt32).toNat = 8 := rfl
    rw [UInt32.toNat_mul, UInt32.toNat_ofNat', h.datalen, height]
    omega
  have hbits : (finalCtx ctx).bits = 8 * (done.flatten ++ rest).length := by
    have hsum : (sha256Pad ctx).bits + (UInt32.ofNat ctx.datalen * 8).toNat =
        8 * (done.flatten ++ rest).length := by
      rw [hpad, h.bits, hrest, hmessage]
      omega
    rw [finalCtx, ShaCtx.bits_addBits _ _ (by omega), hsum]
  rw [closingBlock, List.append_assoc, SecureHash.bytes64_eq hbits]
  rfl

/-- **`sha256_final` gives the rest of the padded message** to `sha256_transform`. -/
theorem Absorbed.final (h : Absorbed ctx done rest)
    (hlen : (done.flatten ++ rest).length < 2 ^ 32) :
    done ++ finalBlocks ctx = SecureHash.blocks (SecureHash.pad (done.flatten ++ rest)) := by
  have hshort := h.short
  have hset : (ctx.data.set ctx.datalen 0x80).take (ctx.datalen + 1) = rest ++ [0x80] := by
    rw [set_take_append (by rw [h.room, h.datalen]; exact hshort), h.datalen, h.pending]
  have hroom : (ctx.data.set ctx.datalen 0x80).length = 64 := by rw [List.length_set, h.room]
  rw [finalBlocks, h.closingBlock_eq hlen, sha256Pad]
  dsimp only
  rw [h.datalen] at hset hroom ⊢
  by_cases hcase : rest.length < 56
  · rw [if_pos hcase, if_pos hcase, SecureHash.blocks_pad_short h.full hcase,
      fillZero_eq _ _ (by omega), hset,
      List.take_left' (by simp only [List.length_append, List.length_singleton,
        List.length_replicate]; omega)]
    have hzeros : 56 - (rest.length + 1) = 55 - rest.length := by omega
    rw [hzeros]
  · rw [if_neg hcase, if_neg hcase,
      SecureHash.blocks_pad_long h.full (Nat.not_lt.mp hcase) hshort,
      fillZero_eq (64 - (rest.length + 1)) _ (by omega), hset]
    have hzeros : 64 - (rest.length + 1) = 63 - rest.length := by omega
    have hend : (ctx.data.set rest.length 0x80).drop (rest.length + 1 + (63 - rest.length)) = [] :=
      List.drop_eq_nil_of_le (by omega)
    rw [hzeros, hend, List.append_nil, fillZero_eq 56 0 ?_, List.take_zero, List.nil_append,
      List.take_left' (by rw [List.length_replicate])]
    simp only [List.length_append, List.length_singleton, List.length_replicate]
    omega

end Absorb

/-! ## Messages in chunks -/

section Message

variable {data m : Bytes} (hdata : data.length = 64) (hlen : m.length < 2 ^ 32)

include hdata hlen

/-- What the context holds when it has absorbed the message. -/
theorem absorbed_message : ∃ rest, (updateBlocks (sha256Init data) m).flatten ++ rest = m ∧
    Absorbed (sha256Update (sha256Init data) m) (updateBlocks (sha256Init data) m) rest :=
  Absorbed.update m (absorbed_init hdata) hlen

theorem message_blocks :
    updateBlocks (sha256Init data) m ++ finalBlocks (sha256Update (sha256Init data) m) =
      SecureHash.blocks (SecureHash.pad m) := by
  obtain ⟨rest, hm, habsorbed⟩ := absorbed_message hdata hlen
  rw [habsorbed.final (by rw [hm]; exact hlen), hm]

theorem finalState_value :
    (finalState (sha256Update (sha256Init data) m)).value = SecureHash.hashValue m := by
  obtain ⟨rest, hm, habsorbed⟩ := absorbed_message hdata hlen
  have hblocks := message_blocks hdata hlen
  have hfull : ∀ b ∈ finalBlocks (sha256Update (sha256Init data) m), b.length = 64 := by
    intro b hb
    have hmem : b ∈ SecureHash.blocks (SecureHash.pad m) := hblocks ▸ List.mem_append_right _ hb
    exact SecureHash.length_of_mem_blocks hmem
  rw [finalState_eq, foldl_transform_value hfull, habsorbed.state, ← List.foldl_append, hblocks]
  rfl

end Message

/-- What the standard asks of a run over `chunks`, the buffer being `data` at first. -/
structure StreamsAsStandard (data : Bytes) (chunks : List Bytes) : Prop where
  /-- Before and after each byte the buffer has its size and `datalen` is in it. -/
  bytes : ∀ p, p <+: chunks.flatten → (sha256Update (sha256Init data) p).data.length = 64 ∧
    (sha256Update (sha256Init data) p).datalen < 64
  calls : ∀ p, p <+: chunks → (p.foldl sha256Update (sha256Init data)).datalen < 64
  blocks : chunkBlocks (sha256Init data) chunks ++
      finalBlocks (chunks.foldl sha256Update (sha256Init data)) =
    SecureHash.blocks (SecureHash.pad chunks.flatten)
  state : (finalState (chunks.foldl sha256Update (sha256Init data))).value =
    SecureHash.hashValue chunks.flatten

/-- **Streaming.** However a message is cut up, `sha256_transform` is given its padding
block by block, no write leaves the buffer, and the state words end as the hash
value of the message. -/
theorem sha256_streams (data : Bytes) (hdata : data.length = 64) (chunks : List Bytes)
    (hlen : chunks.flatten.length < 2 ^ 32) : StreamsAsStandard data chunks := by
  have hbytes : ∀ p, p <+: chunks.flatten →
      (sha256Update (sha256Init data) p).data.length = 64 ∧
        (sha256Update (sha256Init data) p).datalen < 64 := by
    intro p hp
    obtain ⟨rest, -, habsorbed⟩ :=
      absorbed_message hdata (Nat.lt_of_le_of_lt hp.length_le hlen)
    refine ⟨habsorbed.room, ?_⟩
    rw [habsorbed.datalen]
    exact habsorbed.short
  refine ⟨hbytes, ?_, ?_, ?_⟩
  · intro p hp
    obtain ⟨later, rfl⟩ := hp
    rw [foldl_sha256Update]
    refine (hbytes p.flatten ?_).2
    rw [List.flatten_append]
    exact List.prefix_append _ _
  · rw [chunkBlocks_eq, foldl_sha256Update]
    exact message_blocks hdata hlen
  · rw [foldl_sha256Update]
    exact finalState_value hdata hlen

/-- Three bytes in three calls, one of them without data. -/
theorem sha256_streams_abc :
    StreamsAsStandard (List.replicate 64 7) [[0x61], [], [0x62, 0x63]] :=
  sha256_streams (List.replicate 64 7) (by decide) [[0x61], [], [0x62, 0x63]] (by decide)

/-! ## The digest -/

/-- The low bytes of the state words. -/
def ShaState.lowBytes (s : ShaState) : Bytes := s.value.words.map UInt32.toUInt8

theorem hashBytes_eq (s : ShaState) :
    s.hashBytes = s.value.words.flatMap fun w => List.replicate 4 w.toUInt8 := rfl

theorem flatMap_eq_iff {α β : Type} {f g : α → List β} {l : List α}
    (h : ∀ a ∈ l, (f a).length = (g a).length) :
    l.flatMap f = l.flatMap g ↔ ∀ a ∈ l, f a = g a := by
  induction l with
  | nil => exact ⟨fun _ a ha => absurd ha List.not_mem_nil, fun _ => rfl⟩
  | cons a l ih =>
      obtain ⟨ha, hl⟩ := List.forall_mem_cons.mp h
      rw [List.flatMap_cons, List.flatMap_cons, List.forall_mem_cons, ← ih hl]
      constructor
      · intro heq
        exact List.append_inj heq ha
      · rintro ⟨hfirst, hrest⟩
        rw [hfirst, hrest]

/-- What is written depends on the low bytes alone, and tells them. -/
theorem hashBytes_inj {s s' : ShaState} :
    s.hashBytes = s'.hashBytes ↔ s.lowBytes = s'.lowBytes := by
  have hrepeat : ∀ t : ShaState, t.hashBytes = t.lowBytes.flatMap (List.replicate 4) := by
    intro t
    rw [hashBytes_eq, ShaState.lowBytes, List.flatMap_map]
  constructor
  · intro h
    simp only [ShaState.hashBytes, List.flatMap_cons, List.flatMap_nil, List.replicate_succ,
      List.replicate_zero, List.cons_append, List.nil_append, List.append_nil,
      List.cons.injEq] at h
    simp only [ShaState.lowBytes, ShaState.value, SecureHash.HashValue.words, List.map_cons,
      List.map_nil, List.cons.injEq]
    tauto
  · intro h
    rw [hrepeat, hrepeat, h]

/-- All four bytes of the word are the same. -/
def Uniform (w : UInt32) : Prop := bytes32 w = List.replicate 4 w.toUInt8

/-- The bytes written are the digest exactly when the words are uniform. -/
theorem sha256Final_eq_digest_iff {data m : Bytes} (hdata : data.length = 64)
    (hlen : m.length < 2 ^ 32) :
    sha256Final (sha256Update (sha256Init data) m) = SecureHash.digest m ↔
      ∀ w ∈ (SecureHash.hashValue m).words, Uniform w := by
  have hpointwise := flatMap_eq_iff (f := fun w : UInt32 => List.replicate 4 w.toUInt8)
    (g := bytes32) (l := (SecureHash.hashValue m).words) fun w _ => rfl
  rw [sha256Final_eq, hashBytes_eq, finalState_value hdata hlen]
  refine hpointwise.trans ?_
  constructor
  · intro h w hw
    exact (h w hw).symm
  · intro h w hw
    exact (h w hw).symm

/-- **Digests.** `sha256_final` writes the digest of a message if and only if in every
word of its hash value the four bytes are the same; and two final states that
differ are told apart if and only if they differ in the low byte of some word. -/
theorem sha256_digest_iff (data : Bytes) (hdata : data.length = 64) (m : Bytes)
    (hlen : m.length < 2 ^ 32) (s s' : ShaState) :
    (sha256Final (sha256Update (sha256Init data) m) = SecureHash.digest m ↔
      ∀ w ∈ (SecureHash.hashValue m).words, Uniform w) ∧
    ((s ≠ s' → s.hashBytes ≠ s'.hashBytes) ↔ s = s' ∨ s.lowBytes ≠ s'.lowBytes) := by
  constructor
  · exact sha256Final_eq_digest_iff hdata hlen
  · rw [ne_eq, ne_eq, hashBytes_inj, ← or_iff_not_imp_left]

theorem abc_word : (SecureHash.hashValue [0x61, 0x62, 0x63]).a = 0xba7816bf := by
  have hstate : (finalState (sha256Update (sha256Init (List.replicate 64 0))
      [0x61, 0x62, 0x63])).a = 0xba7816bf := by
    decide +kernel
  have hinit : (List.replicate 64 (0 : UInt8)).length = 64 := by decide
  rw [← finalState_value hinit (by decide)]
  exact hstate

theorem abc_not_uniform :
    ¬ ∀ w ∈ (SecureHash.hashValue [0x61, 0x62, 0x63]).words, Uniform w := by
  intro h
  have hword := h _ (List.mem_cons_self ..)
  rw [abc_word] at hword
  exact absurd hword (by unfold Uniform; decide)

/-- The digest of `abc` is not written, and two states that differ in a high bit are
not told apart. -/
theorem sha256_digest_abc :
    ¬ sha256Final (sha256Update (sha256Init (List.replicate 64 0)) [0x61, 0x62, 0x63]) =
        SecureHash.digest [0x61, 0x62, 0x63] ∧
    ¬ ((⟨0, 0, 0, 0, 0, 0, 0, 0⟩ : ShaState) ≠ ⟨256, 0, 0, 0, 0, 0, 0, 0⟩ →
      (⟨0, 0, 0, 0, 0, 0, 0, 0⟩ : ShaState).hashBytes ≠
        (⟨256, 0, 0, 0, 0, 0, 0, 0⟩ : ShaState).hashBytes) := by
  obtain ⟨hdigest, hstates⟩ := sha256_digest_iff (List.replicate 64 0) (by decide)
    [0x61, 0x62, 0x63] (by decide) ⟨0, 0, 0, 0, 0, 0, 0, 0⟩ ⟨256, 0, 0, 0, 0, 0, 0, 0⟩
  rw [hdigest, hstates]
  exact ⟨abc_not_uniform, by decide⟩

/-- Not every message gets its digest. -/
theorem abc_digest_not_written :
    ¬ ∀ data m : Bytes, data.length = 64 → m.length < 2 ^ 32 →
      sha256Final (sha256Update (sha256Init data) m) = SecureHash.digest m := by
  intro hall
  have hdata : (List.replicate 64 (0 : UInt8)).length = 64 := List.length_replicate
  have hlen : ([0x61, 0x62, 0x63] : Bytes).length < 2 ^ 32 := by decide
  exact abc_not_uniform ((sha256Final_eq_digest_iff hdata hlen).mp (hall _ _ hdata hlen))

end Freecoin
