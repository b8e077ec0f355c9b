import Freecoin.Shared
import Mathlib.Data.FinEnum

/-!
# util.c: hex strings

`bytes_to_hexstr` writes two digits for a byte, the first for its upper half. The
second one should be for the lower half but is made of the whole byte, which is
the same only below 16. `hexstr_to_bytes` puts the halves together again.

The positions in the string are an `int`, so neither function gets past its
`2 ^ 30`-th byte.
-/

namespace Freecoin

open Lib

/-- `hexc_to_nibble(c)`. A `char` from 0x80 on is in no range, signed or not. -/
def hexcToNibble (c : UInt8) : UInt8 :=
  if 0x30 ≤ c ∧ c ≤ 0x39 then c - 0x30
  else if 0x61 ≤ c ∧ c ≤ 0x66 then c - 0x61 + 10
  else if 0x41 ≤ c ∧ c ≤ 0x46 then c - 0x41 + 10
  else 255

/-- `nibble_to_hexc(n)`. -/
def nibbleToHexc (n : UInt8) : UInt8 :=
  if n ≤ 9 then n + 0x30 else n + 0x61 - 10

/-- The byte of two digits. -/
def hexByte (high low : UInt8) : UInt8 := hexcToNibble high <<< 4 ||| hexcToNibble low

/-- `for(byte_pos=0, str_pos=0; byte_pos<bytes; byte_pos++, str_pos+=2)`, with `n` passes left. -/
def strLoop (pass : ℕ → ℕ → Mem → Mem) : ℕ → ℕ → ℕ → Mem → Except IntOverflow Mem
  | 0, _, _, dest => .ok dest
  | n + 1, bytePos, strPos, dest =>
      let dest := pass bytePos strPos dest
      if strPos + 2 < 2 ^ 31 then strLoop pass n (bytePos + 1) (strPos + 2) dest
      else .error .position

/-- `hexstr_to_bytes(bytearr, string, bytes)`. -/
def hexstrToBytes (bytearr string : Mem) (bytes : ℕ) : Except IntOverflow Mem :=
  strLoop (fun bytePos strPos bytearr =>
    bytearr.write bytePos [hexByte (string strPos) (string (strPos + 1))]) bytes 0 0 bytearr

/-- `bytes_to_hexstr(string, bytearr, bytes)`. -/
def bytesToHexstr (string bytearr : Mem) (bytes : ℕ) : Except IntOverflow Mem :=
  strLoop (fun bytePos strPos string =>
    let string := string.write strPos [nibbleToHexc (bytearr bytePos >>> 4)]
    string.write (strPos + 1) [nibbleToHexc (bytearr bytePos)]) bytes 0 0 string

/-! ## The loops -/

section Loop

variable {pass : ℕ → ℕ → Mem → Mem}

/-- What every pass preserves holds at the end of the loop. -/
theorem strLoop_rule {P : ℕ → Mem → Prop}
    (hpass : ∀ k dest, P k dest → P (k + 1) (pass k (2 * k) dest)) : ∀ (n i : ℕ) (dest : Mem),
      2 * (i + n) < 2 ^ 31 → P i dest →
        ∃ m, strLoop pass n i (2 * i) dest = .ok m ∧ P (i + n) m := by
  intro n
  induction n with
  | zero =>
      intro i dest _ hdest
      exact ⟨dest, rfl, hdest⟩
  | succ n ih =>
      intro i dest hint hdest
      obtain ⟨m, hrun, hm⟩ := ih (i + 1) _ (by omega) (hpass i dest hdest)
      refine ⟨m, ?_, ?_⟩
      · rw [strLoop, if_pos (by omega)]
        exact hrun
      · rwa [Nat.add_right_comm] at hm

/-- From the `2 ^ 30`-th byte on the position leaves `int`. -/
theorem strLoop_overflow : ∀ (n i : ℕ) (dest : Mem), 0 < n → 2 ^ 31 ≤ 2 * (i + n) →
    strLoop pass n i (2 * i) dest = .error .position := by
  intro n
  induction n with
  | zero => intro i dest hpos; exact absurd hpos (Nat.lt_irrefl 0)
  | succ n ih =>
      intro i dest _ hlarge
      rw [strLoop]
      split
      · exact ih (i + 1) _ (by omega) (by omega)
      · rfl

theorem strLoop_int {n : ℕ} {dest m : Mem} (h : strLoop pass n 0 0 dest = .ok m) :
    n < 2 ^ 30 := by
  by_contra hlarge
  have hoverflow : strLoop pass n 0 (2 * 0) dest = .error .position :=
    strLoop_overflow n 0 dest (by omega) (by omega)
  cases hoverflow.symm.trans h

end Loop

/-- The first `i` bytes are those of the digits, and the others as they were. -/
structure Decoded (bytearr string : Mem) (i : ℕ) (m : Mem) : Prop where
  bytes : ∀ k < i, m k = hexByte (string (2 * k)) (string (2 * k + 1))
  rest : ∀ k, i ≤ k → m k = bytearr k

/-- The digits of the first `i` bytes have been written, and nothing behind them. -/
structure Encoded (string bytearr : Mem) (i : ℕ) (m : Mem) : Prop where
  digits : ∀ k < i,
    m (2 * k) = nibbleToHexc (bytearr k >>> 4) ∧ m (2 * k + 1) = nibbleToHexc (bytearr k)
  rest : ∀ p, 2 * i ≤ p → m p = string p

theorem hexstrToBytes_spec (bytearr string : Mem) {n : ℕ} (hint : n < 2 ^ 30) :
    ∃ m, hexstrToBytes bytearr string n = .ok m ∧ Decoded bytearr string n m := by
  have hrule : ∃ m, hexstrToBytes bytearr string n = .ok m ∧ Decoded bytearr string (0 + n) m := by
    refine strLoop_rule ?_ n 0 bytearr (by omega) ⟨fun k hk => by omega, fun _ _ => rfl⟩
    rintro i dest ⟨hbytes, hrest⟩
    constructor
    · intro k hk
      rcases Nat.lt_succ_iff_lt_or_eq.mp hk with hk | rfl
      · rw [Mem.write_before _ hk, hbytes k hk]
      · exact Mem.write_in (i := 0) rfl
    · intro k hk
      rw [Mem.write_after (by rw [List.length_singleton]; exact hk), hrest k (by omega)]
  rwa [Nat.zero_add] at hrule

theorem bytesToHexstr_spec (string bytearr : Mem) {n : ℕ} (hint : n < 2 ^ 30) :
    ∃ m, bytesToHexstr string bytearr n = .ok m ∧ Encoded string bytearr n m := by
  have hrule : ∃ m, bytesToHexstr string bytearr n = .ok m ∧ Encoded string bytearr (0 + n) m := by
    refine strLoop_rule ?_ n 0 string (by omega) ⟨fun k hk => by omega, fun _ _ => rfl⟩
    rintro i dest ⟨hdigits, hrest⟩
    dsimp only
    constructor
    · intro k hk
      rcases Nat.lt_succ_iff_lt_or_eq.mp hk with hk | rfl
      · obtain ⟨hhigh, hlow⟩ := hdigits k hk
        rw [Mem.write_before _ (by omega), Mem.write_before _ (by omega), hhigh,
          Mem.write_before _ (by omega), Mem.write_before _ (by omega), hlow]
        exact ⟨rfl, rfl⟩
      · constructor
        · rw [Mem.write_before _ (Nat.lt_succ_self _)]
          exact Mem.write_in (i := 0) rfl
        · exact Mem.write_in (i := 0) rfl
    · intro p hp
      rw [Mem.write_after (by rw [List.length_singleton]; omega),
        Mem.write_after (by rw [List.length_singleton]; omega), hrest p (by omega)]
  rwa [Nat.zero_add] at hrule

/-! ## One byte -/

/-- A digit as `bytes_to_hexstr` should write it. -/
def IsLowerHex (c : UInt8) : Prop := (0x30 ≤ c ∧ c ≤ 0x39) ∨ (0x61 ≤ c ∧ c ≤ 0x66)

/-- A digit of either case. -/
def IsHexDigit (c : UInt8) : Prop := IsLowerHex c ∨ (0x41 ≤ c ∧ c ≤ 0x46)

instance (c : UInt8) : Decidable (IsLowerHex c) := inferInstanceAs (Decidable (_ ∨ _))

instance (c : UInt8) : Decidable (IsHexDigit c) := inferInstanceAs (Decidable (_ ∨ _))

/-- The letter in lower case. -/
def toLower (c : UInt8) : UInt8 := if 0x41 ≤ c ∧ c ≤ 0x5a then c + 0x20 else c

/-- The first digit is always one. -/
theorem isLowerHex_high (v : UInt8) : IsLowerHex (nibbleToHexc (v >>> 4)) := by
  revert v
  decide +kernel

/-- Both digits are, and give the byte again, if and only if its upper half is zero. -/
theorem byte_roundTrip_iff (v : UInt8) :
    (IsLowerHex (nibbleToHexc v) ∧ hexByte (nibbleToHexc (v >>> 4)) (nibbleToHexc v) = v) ↔
      v < 16 := by
  revert v
  decide +kernel

theorem hexcToNibble_digit {c : UInt8} (h : IsHexDigit c) :
    (hexcToNibble c).toNat < 16 ∧ nibbleToHexc (hexcToNibble c) = toLower c ∧
      (hexcToNibble c = 0 ↔ c = 0x30) := by
  revert c
  decide +kernel

/-- Two halves: the digit of the upper one is right, and that of the whole byte is the digit
of the lower one if and only if the upper one is zero. -/
theorem nibbles_roundTrip {h l : UInt8} (hh : h.toNat < 16) (hl : l.toNat < 16) :
    nibbleToHexc ((h <<< 4 ||| l) >>> 4) = nibbleToHexc h ∧
      (nibbleToHexc (h <<< 4 ||| l) = nibbleToHexc l ↔ h = 0) := by
  have hall : ∀ h < 16, ∀ l < 16,
      nibbleToHexc ((UInt8.ofNat h <<< 4 ||| UInt8.ofNat l) >>> 4) = nibbleToHexc (UInt8.ofNat h) ∧
        (nibbleToHexc (UInt8.ofNat h <<< 4 ||| UInt8.ofNat l) = nibbleToHexc (UInt8.ofNat l) ↔
          UInt8.ofNat h = 0) := by
    decide +kernel
  have hboth := hall h.toNat hh l.toNat hl
  rwa [UInt8.ofNat_toNat, UInt8.ofNat_toNat] at hboth

theorem digits_roundTrip {c d : UInt8} (hc : IsHexDigit c) (hd : IsHexDigit d) :
    nibbleToHexc (hexByte c d >>> 4) = toLower c ∧
      (nibbleToHexc (hexByte c d) = toLower d ↔ c = 0x30) := by
  obtain ⟨hhigh, hlower, hzero⟩ := hexcToNibble_digit hc
  obtain ⟨hlow, hlower', -⟩ := hexcToNibble_digit hd
  rw [← hlower, ← hlower', ← hzero]
  exact nibbles_roundTrip hhigh hlow

/-! ## Strings -/

/-- The bytes become twice as many digits, which are read as the same bytes, whatever is
overwritten. -/
def EncodesBytes (bytearr : Mem) (n : ℕ) : Prop :=
  ∀ string dest : Mem, ∃ s b, bytesToHexstr string bytearr n = .ok s ∧
    (∀ i < 2 * n, IsLowerHex (s i)) ∧ (∀ i, 2 * n ≤ i → s i = string i) ∧
    hexstrToBytes dest s n = .ok b ∧ ∀ i < n, b i = bytearr i

/-- The digits become bytes that are written as the same digits, in lower case. -/
def DecodesDigits (s : Mem) (n : ℕ) : Prop :=
  ∀ bytearr string : Mem, ∃ b t, hexstrToBytes bytearr s n = .ok b ∧
    bytesToHexstr string b n = .ok t ∧ ∀ i < 2 * n, t i = toLower (s i)

theorem encodesBytes_iff (bytearr : Mem) (n : ℕ) :
    EncodesBytes bytearr n ↔ (∀ i < n, bytearr i < 16) ∧ n < 2 ^ 30 := by
  constructor
  · intro h
    obtain ⟨s, b, hs, hlower, -, hb, hsame⟩ := h (fun _ => 0) fun _ => 0
    have hint : n < 2 ^ 30 := strLoop_int hs
    refine ⟨fun i hi => ?_, hint⟩
    obtain ⟨m, hm, hencoded⟩ := bytesToHexstr_spec (fun _ => 0) bytearr hint
    obtain ⟨p, hp, hdecoded⟩ := hexstrToBytes_spec (fun _ => 0) s hint
    cases hs.symm.trans hm
    cases hb.symm.trans hp
    obtain ⟨hhigh, hlow⟩ := hencoded.digits i hi
    apply (byte_roundTrip_iff (bytearr i)).mp
    rw [← hhigh, ← hlow, ← hdecoded.bytes i hi]
    exact ⟨hlower (2 * i + 1) (by omega), hsame i hi⟩
  · rintro ⟨hsmall, hint⟩ string dest
    obtain ⟨s, hs, hencoded⟩ := bytesToHexstr_spec string bytearr hint
    obtain ⟨b, hb, hdecoded⟩ := hexstrToBytes_spec dest s hint
    refine ⟨s, b, hs, ?_, hencoded.rest, hb, ?_⟩
    · intro i hi
      obtain ⟨hhigh, hlow⟩ := hencoded.digits (i / 2) (by omega)
      rcases Nat.mod_two_eq_zero_or_one i with heven | hodd
      · rw [show i = 2 * (i / 2) by omega, hhigh]
        exact isLowerHex_high _
      · rw [show i = 2 * (i / 2) + 1 by omega, hlow]
        exact ((byte_roundTrip_iff _).mpr (hsmall (i / 2) (by omega))).1
    · intro i hi
      obtain ⟨hhigh, hlow⟩ := hencoded.digits i hi
      rw [hdecoded.bytes i hi, hhigh, hlow]
      exact ((byte_roundTrip_iff _).mpr (hsmall i hi)).2

theorem decodesDigits_iff {s : Mem} {n : ℕ} (hdigits : ∀ i < 2 * n, IsHexDigit (s i)) :
    DecodesDigits s n ↔ (∀ i < n, s (2 * i) = 0x30) ∧ n < 2 ^ 30 := by
  have hpair : ∀ i < n, nibbleToHexc (hexByte (s (2 * i)) (s (2 * i + 1)) >>> 4) =
      toLower (s (2 * i)) ∧ (nibbleToHexc (hexByte (s (2 * i)) (s (2 * i + 1))) =
        toLower (s (2 * i + 1)) ↔ s (2 * i) = 0x30) := fun i hi =>
    digits_roundTrip (hdigits (2 * i) (by omega)) (hdigits (2 * i + 1) (by omega))
  constructor
  · intro h
    obtain ⟨b, t, hb, ht, hsame⟩ := h (fun _ => 0) fun _ => 0
    have hint : n < 2 ^ 30 := strLoop_int hb
    refine ⟨fun i hi => ?_, hint⟩
    obtain ⟨m, hm, hdecoded⟩ := hexstrToBytes_spec (fun _ => 0) s hint
    obtain ⟨p, hp, hencoded⟩ := bytesToHexstr_spec (fun _ => 0) b hint
    cases hb.symm.trans hm
    cases ht.symm.trans hp
    apply (hpair i hi).2.mp
    rw [← hsame (2 * i + 1) (by omega), (hencoded.digits i hi).2, hdecoded.bytes i hi]
  · rintro ⟨hzero, hint⟩ bytearr string
    obtain ⟨b, hb, hdecoded⟩ := hexstrToBytes_spec bytearr s hint
    obtain ⟨t, ht, hencoded⟩ := bytesToHexstr_spec string b hint
    refine ⟨b, t, hb, ht, ?_⟩
    intro i hi
    have hhalf : i / 2 < n := by omega
    obtain ⟨hhigh, hlow⟩ := hencoded.digits (i / 2) hhalf
    obtain ⟨hfirst, hsecond⟩ := hpair (i / 2) hhalf
    rw [hdecoded.bytes _ hhalf] at hhigh hlow
    rcases Nat.mod_two_eq_zero_or_one i with heven | hodd
    · rw [show i = 2 * (i / 2) by omega, hhigh, hfirst]
    · rw [show i = 2 * (i / 2) + 1 by omega, hlow]
      exact hsecond.mpr (hzero _ hhalf)

/-- **Hex strings.** Bytes go to digits and back if and only if the upper half of each is
zero, and digits go to bytes and back if and only if the first of each two is `0`;
and there must be fewer than `2 ^ 30` bytes. -/
theorem hex_roundTrip_iff (bytearr s : Mem) (n : ℕ) :
    (EncodesBytes bytearr n ↔ (∀ i < n, bytearr i < 16) ∧ n < 2 ^ 30) ∧
    ((∀ i < 2 * n, IsHexDigit (s i)) →
      (DecodesDigits s n ↔ (∀ i < n, s (2 * i) = 0x30) ∧ n < 2 ^ 30)) :=
  ⟨encodesBytes_iff bytearr n, decodesDigits_iff⟩

/-- The byte `0x0a`, and the string `0A`. -/
theorem hex_roundTrip_ten :
    EncodesBytes (fun _ => 10) 1 ∧ (∀ i < 2 * 1, IsHexDigit (Mem.ofBytes [0x30, 0x41] i)) ∧
    DecodesDigits (Mem.ofBytes [0x30, 0x41]) 1 := by
  have hdigits : ∀ i < 2 * 1, IsHexDigit (Mem.ofBytes [0x30, 0x41] i) := by decide
  have hboth := hex_roundTrip_iff (fun _ => 10) (Mem.ofBytes [0x30, 0x41]) 1
  refine ⟨hboth.1.mpr ⟨fun _ _ => by decide, by norm_num⟩, hdigits, ?_⟩
  exact (hboth.2 hdigits).mpr ⟨by decide, by norm_num⟩

/-- The byte `0xaa` becomes `a` and a character that is no digit. -/
theorem hex_aa_lost :
    (bytesToHexstr (fun _ => 0) (fun _ => 0xaa) 1).toOption.map (fun s => (s 0, s 1)) =
      some (0x61, 1) ∧
    ¬ ((∀ (bytearr : Mem) (n : ℕ), EncodesBytes bytearr n) ∧
      ∀ (s : Mem) (n : ℕ), (∀ i < 2 * n, IsHexDigit (s i)) → DecodesDigits s n) := by
  refine ⟨by decide, ?_⟩
  rintro ⟨hall, -⟩
  have hsmall := ((encodesBytes_iff (fun _ => 0xaa) 1).mp (hall _ _)).1 0 Nat.one_pos
  exact absurd hsmall (by decide)

end Freecoin
