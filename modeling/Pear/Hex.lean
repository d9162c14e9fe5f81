import Pear.Bundles
import Pear.Lib.Codec

/-!
# Hex strings

What `hex_decode` makes of a string off the wire (`crypto.rs`). It slices two bytes at a time and
hands each slice to the integer parser. A slice that ends inside a character panics, and the parser
lets a sign stand for the first digit of a pair. `hexDecode_exact_iff` says that these two kinds of
strings are all that goes wrong; `classifyMember_eq_none_iff` is what the first kind does to the pass
over a team's bundles.
-/

namespace Pear

/-- `hex_encode`: two lowercase digits a byte. -/
def hexEncode (b : Bytes) : Text :=
  b.flatMap fun x => [Nat.digitChar (x.toNat / 16), Nat.digitChar (x.toNat % 16)]

/-- An even number of hex digits, and the bytes that they denote. -/
inductive HexOf : Text → Bytes → Prop where
  | nil : HexOf [] []
  | pair {c d : Char} {hi lo : Nat} {s : Text} {b : Bytes} : hexDigit c = some hi →
      hexDigit d = some lo → HexOf s b → HexOf (c :: d :: s) (UInt8.ofNat (16 * hi + lo) :: b)

/-- A string that is decoded as hex should be: to the bytes it denotes, or to an error when it denotes
none, and never with a panic. -/
structure HexExact (s : Text) : Prop where
  ok : ∀ b, hexDecode s = some (some b) ↔ HexOf s b
  err : (∀ b, ¬ HexOf s b) → hexDecode s = some none
  noPanic : hexDecode s ≠ none

/-! ## Pairs of characters -/

/-- A pair that the integer parser reads: two digits, or a sign before one. -/
def HexPair (p : Char × Char) : Prop := (p.1 = '+' ∨ ∃ hi, hexDigit p.1 = some hi) ∧
  ∃ lo, hexDigit p.2 = some lo

/-- The string of some pairs. -/
def pairText : List (Char × Char) → Text
  | [] => []
  | p :: ps => p.1 :: p.2 :: pairText ps

/-- A string of pairs that are read, one of them with a sign. -/
def SignedHex (s : Text) : Prop := ∃ ps : List (Char × Char), s = pairText ps ∧
  (∀ p ∈ ps, HexPair p) ∧ ∃ p ∈ ps, p.1 = '+'

/-- After pairs that are read, in a string of an even number of bytes, two bytes end inside a
character: one of three or four bytes, or one of several that comes after one of a single byte. -/
def CutsChar (s : Text) : Prop := byteLen s % 2 = 0 ∧
  ∃ (ps : List (Char × Char)) (c : Char) (rest : Text), s = pairText ps ++ c :: rest ∧
    (∀ p ∈ ps, HexPair p) ∧
    (3 ≤ c.utf8Size ∨ c.utf8Size = 1 ∧ ∃ d rest', rest = d :: rest' ∧ d.utf8Size ≠ 1)

section
variable {c d : Char} {s : Text} {b : Bytes} {n : Nat}

theorem utf8Size_ascii (h : c.toNat < 128) : c.utf8Size = 1 := by
  rw [Char.utf8Size_eq_one_iff, UInt32.le_iff_toNat_le]
  exact Nat.le_of_lt_succ h

/-- A digit is a single byte. -/
theorem utf8Size_hexDigit (h : hexDigit c = some n) : c.utf8Size = 1 := by
  have hle : ∀ {x : Char}, c ≤ x → c.toNat ≤ x.toNat := fun h => by
    rwa [Char.le_def, UInt32.le_iff_toNat_le] at h
  refine utf8Size_ascii ?_
  unfold hexDigit at h
  split at h
  · rename_i hc
    exact Nat.lt_of_le_of_lt (hle hc.2) (by decide)
  · split at h
    · rename_i hc
      exact Nat.lt_of_le_of_lt (hle hc.2) (by decide)
    · split at h
      · rename_i hc
        exact Nat.lt_of_le_of_lt (hle hc.2) (by decide)
      · cases h

theorem hexDigit_sign : hexDigit '+' = none := by decide

/-- What a pair that is read gives. -/
theorem hexByte_isSome_iff : (hexByte c d).isSome ↔ HexPair (c, d) := by
  unfold hexByte HexPair
  cases hd : hexDigit d with
  | none => simp
  | some lo =>
    by_cases hc : c = '+'
    · simp [hc]
    · cases hexDigit c <;> simp [hc]

/-- The characters of a pair that is read are single bytes. -/
theorem HexPair.utf8Size (h : HexPair (c, d)) : c.utf8Size = 1 ∧ d.utf8Size = 1 := by
  obtain ⟨hc, lo, hlo⟩ := h
  refine ⟨?_, utf8Size_hexDigit hlo⟩
  rcases hc with rfl | ⟨hi, hhi⟩
  · decide
  · exact utf8Size_hexDigit hhi

/-- Pairs fill an even number of bytes. -/
theorem byteLen_pairText {ps : List (Char × Char)} (h : ∀ p ∈ ps, HexPair p) :
    byteLen (pairText ps ++ s) % 2 = byteLen s % 2 := by
  induction ps with
  | nil => rfl
  | cons p ps ih =>
    obtain ⟨hc, hd⟩ := (h p (by simp)).utf8Size
    have ih := ih fun q hq => h q (by simp [hq])
    simp only [pairText, List.cons_append, byteLen, List.map_cons, List.sum_cons] at ih ⊢
    omega

/-- Pairs are told apart by the string they spell out. -/
theorem pairText_inj {ps : List (Char × Char)} :
    ∀ {qs : List (Char × Char)}, pairText ps = pairText qs → ps = qs := by
  induction ps with
  | nil =>
    intro qs h
    cases qs with
    | nil => rfl
    | cons q qs => cases h
  | cons p ps ih =>
    intro qs h
    cases qs with
    | nil => cases h
    | cons q qs =>
      injection h with h₁ h
      injection h with h₂ h
      rw [Prod.ext h₁ h₂, ih h]

/-! ## The loop -/

/-- A pair that is read is the loop's next byte. -/
theorem hexLoop_pair {x : UInt8} (h : hexByte c d = some x) (s : Text) :
    hexLoop (c :: d :: s) = (hexLoop s).map (·.map (x :: ·)) := by
  obtain ⟨hc, hd⟩ := (hexByte_isSome_iff.mp (Option.isSome_iff_exists.mpr ⟨x, h⟩)).utf8Size
  rw [hexLoop, if_pos hc, if_pos hd, h]

/-- **What the loop decodes**: pairs that are read, to their bytes. -/
theorem hexLoop_eq_ok_iff : ∀ {s : Text} {b : Bytes}, hexLoop s = some (some b) ↔
    ∃ ps : List (Char × Char), s = pairText ps ∧ ps.map (fun p => hexByte p.1 p.2) = b.map some
  | [], b => by
    constructor
    · intro h
      cases h
      exact ⟨[], rfl, rfl⟩
    · rintro ⟨ps, hs, hps⟩
      cases ps with
      | nil =>
        cases b with
        | nil => rfl
        | cons y rest => cases hps
      | cons p ps => cases hs
  | [c], b => by
    constructor
    · intro h
      unfold hexLoop at h
      split at h <;> cases h
    · rintro ⟨ps, hs, -⟩
      cases ps with
      | nil => cases hs
      | cons p ps => cases hs
  | c :: d :: s, b => by
    cases hbyte : hexByte c d with
    | none =>
      constructor
      · intro h
        unfold hexLoop at h
        rw [hbyte] at h
        split at h
        · split at h <;> cases h
        · split at h <;> cases h
      · rintro ⟨ps, hs, hps⟩
        cases ps with
        | nil => cases hs
        | cons p ps =>
          cases hs
          rw [List.map_cons, hbyte] at hps
          cases b <;> cases hps
    | some x =>
      rw [hexLoop_pair hbyte]
      constructor
      · intro h
        obtain ⟨tail, htail, hb⟩ := Option.map_eq_some_iff.mp h
        obtain ⟨rest, rfl, rfl⟩ := Option.map_eq_some_iff.mp hb
        obtain ⟨ps, rfl, hps⟩ := hexLoop_eq_ok_iff.mp htail
        exact ⟨(c, d) :: ps, rfl, by simp [hps, hbyte]⟩
      · rintro ⟨ps, hs, hps⟩
        cases ps with
        | nil => cases hs
        | cons p ps =>
          cases hs
          rw [List.map_cons, hbyte] at hps
          cases b with
          | nil => cases hps
          | cons y rest =>
            injection hps with hy hps
            injection hy with hy
            rw [hexLoop_eq_ok_iff.mpr ⟨ps, rfl, hps⟩, hy]
            rfl

/-- **Where the loop panics**: at a character that two bytes end inside of. -/
theorem hexLoop_eq_none_iff : ∀ {s : Text}, byteLen s % 2 = 0 → (hexLoop s = none ↔ CutsChar s)
  | [], _ => by
    constructor
    · intro h
      cases h
    · rintro ⟨-, ps, c, rest, hs, -⟩
      cases ps <;> cases hs
  | [c], hlen => by
    have hc := Char.utf8Size_eq c
    simp only [byteLen, List.map_cons, List.map_nil, List.sum_cons, List.sum_nil] at hlen
    unfold hexLoop
    constructor
    · intro h
      split at h
      · cases h
      · exact ⟨by simpa [byteLen] using hlen, [], c, [], rfl, by simp, .inl (by omega)⟩
    · rintro ⟨-, ps, c', rest, hs, -, hcut⟩
      match ps, hs with
      | [], hs =>
        cases hs
        rcases hcut with h | ⟨-, d, rest', hrest, -⟩
        · rw [if_neg (by omega)]
        · cases hrest
      | [p], hs => cases hs
  | c :: d :: s, hlen => by
    have hstep : byteLen (c :: d :: s) = c.utf8Size + (d.utf8Size + byteLen s) := rfl
    cases hbyte : hexByte c d with
    | some x =>
      have hpair := hexByte_isSome_iff.mp (Option.isSome_iff_exists.mpr ⟨x, hbyte⟩)
      obtain ⟨hc, hd⟩ := hpair.utf8Size
      rw [hexLoop_pair hbyte, Option.map_eq_none_iff, hexLoop_eq_none_iff (by omega)]
      constructor
      · rintro ⟨-, ps, c', rest, rfl, hps, hcut⟩
        exact ⟨hlen, (c, d) :: ps, c', rest, rfl, by simpa [hpair] using hps, hcut⟩
      · rintro ⟨-, ps, c', rest, hs, hps, hcut⟩
        cases ps with
        | nil =>
          cases hs
          rcases hcut with h | ⟨-, d', rest', hrest, hne⟩
          · omega
          · cases hrest
            exact absurd hd hne
        | cons p ps =>
          cases hs
          exact ⟨by omega, ps, c', rest, rfl, fun q hq => hps q (by simp [hq]), hcut⟩
    | none =>
      -- no pair comes before the cut
      have hfirst : CutsChar (c :: d :: s) ↔
          3 ≤ c.utf8Size ∨ c.utf8Size = 1 ∧ d.utf8Size ≠ 1 := by
        constructor
        · rintro ⟨-, ps, c', rest, hs, hps, hcut⟩
          cases ps with
          | nil =>
            cases hs
            refine hcut.imp_right ?_
            rintro ⟨hc, d', rest', hrest, hne⟩
            cases hrest
            exact ⟨hc, hne⟩
          | cons p ps =>
            cases hs
            have := hexByte_isSome_iff.mpr (hps p (by simp))
            rw [hbyte] at this
            cases this
        · intro h
          exact ⟨hlen, [], c, d :: s, rfl, by simp, h.imp_right fun h => ⟨h.1, d, s, rfl, h.2⟩⟩
      rw [hfirst]
      have hc := Char.utf8Size_eq c
      unfold hexLoop
      rw [hbyte]
      by_cases hone : c.utf8Size = 1
      · by_cases hd : d.utf8Size = 1
        · simp [hone, hd]
        · simp [hone, hd]
      · by_cases htwo : c.utf8Size = 2
        · simp [htwo]
        · simp only [hone, htwo, if_false, true_iff]
          omega

/-! ## Decoding -/

/-- A string that some pairs spell out has an even number of bytes. -/
theorem hexDecode_pairText {ps : List (Char × Char)} (h : ∀ p ∈ ps, HexPair p) :
    hexDecode (pairText ps) = hexLoop (pairText ps) := by
  have heven := byteLen_pairText (s := []) h
  rw [List.append_nil] at heven
  exact if_neg (not_not.mpr heven)

/-- Pairs that give bytes are read. -/
theorem hexPair_of_map {ps : List (Char × Char)}
    (h : ps.map (fun p => hexByte p.1 p.2) = b.map some) : ∀ p ∈ ps, HexPair p := by
  intro p hp
  have hmem : hexByte p.1 p.2 ∈ b.map some := h ▸ List.mem_map_of_mem hp
  obtain ⟨x, -, hx⟩ := List.mem_map.mp hmem
  exact hexByte_isSome_iff.mp (Option.isSome_iff_exists.mpr ⟨x, hx.symm⟩)

/-- Pairs that are read give bytes. -/
theorem exists_bytes {ps : List (Char × Char)} (h : ∀ p ∈ ps, HexPair p) :
    ∃ b : Bytes, ps.map (fun p => hexByte p.1 p.2) = b.map some := by
  induction ps with
  | nil => exact ⟨[], rfl⟩
  | cons p ps ih =>
    obtain ⟨x, hx⟩ := Option.isSome_iff_exists.mp (hexByte_isSome_iff.mpr (h p (by simp)))
    obtain ⟨b, hb⟩ := ih fun q hq => h q (by simp [hq])
    exact ⟨x :: b, by rw [List.map_cons, List.map_cons, hx, hb]⟩

/-- **What `hex_decode` accepts**: pairs that are read. -/
theorem hexDecode_eq_ok_iff : hexDecode s = some (some b) ↔
    ∃ ps : List (Char × Char), s = pairText ps ∧ ps.map (fun p => hexByte p.1 p.2) = b.map some := by
  constructor
  · intro h
    unfold hexDecode at h
    split at h
    · cases h
    · exact hexLoop_eq_ok_iff.mp h
  · rintro ⟨ps, rfl, hps⟩
    rw [hexDecode_pairText (hexPair_of_map hps)]
    exact hexLoop_eq_ok_iff.mpr ⟨ps, rfl, hps⟩

/-- **`hex_decode` panics** where two bytes end inside a character. -/
theorem hexDecode_eq_none_iff : hexDecode s = none ↔ CutsChar s := by
  unfold hexDecode
  split
  · rename_i hodd
    exact ⟨nofun, fun h => absurd h.1 hodd⟩
  · rename_i heven
    exact hexLoop_eq_none_iff (not_not.mp heven)

/-- Hex digits are pairs without a sign. -/
theorem hexOf_iff : HexOf s b ↔ ∃ ps : List (Char × Char), s = pairText ps ∧
    (∀ p ∈ ps, p.1 ≠ '+') ∧ ps.map (fun p => hexByte p.1 p.2) = b.map some := by
  constructor
  · intro h
    induction h with
    | nil => exact ⟨[], rfl, by simp, rfl⟩
    | @pair c d hi lo s b hhi hlo _ ih =>
      obtain ⟨ps, rfl, hsign, hps⟩ := ih
      have hc : c ≠ '+' := by
        rintro rfl
        rw [hexDigit_sign] at hhi
        cases hhi
      have hbyte : hexByte c d = some (UInt8.ofNat (16 * hi + lo)) := by
        simp [hexByte, hlo, hhi, hc]
      refine ⟨(c, d) :: ps, rfl, by simpa [hc] using hsign, ?_⟩
      rw [List.map_cons, List.map_cons, hbyte, hps]
  · rintro ⟨ps, rfl, hsign, hps⟩
    induction ps generalizing b with
    | nil =>
      cases b with
      | nil => exact .nil
      | cons x b => cases hps
    | cons p ps ih =>
      obtain ⟨hc, hsign⟩ := List.forall_mem_cons.mp hsign
      cases b with
      | nil => cases hps
      | cons x b =>
        injection hps with hx hps
        obtain ⟨hhi | ⟨hi, hhi⟩, lo, hlo⟩ :=
          hexByte_isSome_iff.mp (Option.isSome_iff_exists.mpr ⟨x, hx⟩)
        · exact absurd hhi hc
        · have hval : UInt8.ofNat (16 * hi + lo) = x := by
            simpa [hexByte, hlo, hhi, hc] using hx
          exact hval ▸ .pair hhi hlo (ih hsign hps)

/-- **`hex_decode` does what it should** unless a sign is read as a digit or a slice ends inside a
character. -/
theorem hexDecode_exact_iff : HexExact s ↔ ¬ (SignedHex s ∨ CutsChar s) := by
  constructor
  · rintro h (⟨ps, rfl, hps, p, hp, hsign⟩ | hcut)
    · obtain ⟨b, hb⟩ := exists_bytes hps
      obtain ⟨qs, hqs, hfree, -⟩ :=
        hexOf_iff.mp ((h.ok b).mp (hexDecode_eq_ok_iff.mpr ⟨ps, rfl, hb⟩))
      exact hfree p (pairText_inj hqs ▸ hp) hsign
    · exact h.noPanic (hexDecode_eq_none_iff.mpr hcut)
  · intro h
    have hno : hexDecode s ≠ none := fun hnone => h (.inr (hexDecode_eq_none_iff.mp hnone))
    have hok : ∀ b, hexDecode s = some (some b) ↔ HexOf s b := by
      intro b
      rw [hexDecode_eq_ok_iff, hexOf_iff]
      constructor
      · rintro ⟨ps, hs, hps⟩
        exact ⟨ps, hs, fun p hp hsign => h (.inl ⟨ps, hs, hexPair_of_map hps, p, hp, hsign⟩), hps⟩
      · rintro ⟨ps, hs, -, hps⟩
        exact ⟨ps, hs, hps⟩
    refine ⟨hok, fun hnone => ?_, hno⟩
    match hdec : hexDecode s with
    | none => exact absurd hdec hno
    | some none => rfl
    | some (some b) => exact absurd ((hok b).mp hdec) (hnone b)

end

/-! ## Encoding -/

/-- Each of the sixteen digits has its value. -/
theorem hexDigit_digitChar {n : Nat} (h : n < 16) : hexDigit (Nat.digitChar n) = some n := by
  have hall : ∀ n < 16, hexDigit (Nat.digitChar n) = some n := by decide
  exact hall n h

/-- An encoding denotes its bytes. -/
theorem hexOf_hexEncode (b : Bytes) : HexOf (hexEncode b) b := by
  induction b with
  | nil => exact .nil
  | cons x b ih =>
    have hx := x.toNat_lt
    have hbyte : UInt8.ofNat (16 * (x.toNat / 16) + x.toNat % 16) = x := by
      rw [Nat.div_add_mod, UInt8.ofNat_toNat]
    have h := HexOf.pair (hexDigit_digitChar (n := x.toNat / 16) (by omega))
      (hexDigit_digitChar (n := x.toNat % 16) (by omega)) ih
    rwa [hbyte] at h

/-- **What is encoded is decoded.** -/
theorem hexDecode_hexEncode (b : Bytes) : hexDecode (hexEncode b) = some (some b) := by
  obtain ⟨ps, hs, -, hps⟩ := hexOf_iff.mp (hexOf_hexEncode b)
  exact hexDecode_eq_ok_iff.mpr ⟨ps, hs, hps⟩

theorem length_hexEncode (b : Bytes) : (hexEncode b).length = 2 * b.length := by
  induction b with
  | nil => rfl
  | cons x b ih =>
    rw [hexEncode, List.flatMap_cons, List.length_append, ← hexEncode, ih]
    simp only [List.length_cons, List.length_nil]
    omega

/-! ## Member records -/

/-- A bundle with a field that cannot be decoded without a panic. -/
def MemberInfo.Cuts (m : MemberInfo) : Prop := ∃ pubkey edHex sigHex, m.pubkey = some pubkey ∧
  m.ed25519 = some edHex ∧ m.sig = some sigHex ∧ (CutsChar pubkey ∨ CutsChar edHex ∨ CutsChar sigHex)

theorem decodeArray_eq_none_iff {n : Nat} {s : Text} : decodeArray n s = none ↔ CutsChar s := by
  rw [decodeArray, Option.map_eq_none_iff, hexDecode_eq_none_iff]

/-- **A member record has a bucket** unless one of its three fields panics. -/
theorem classifyMember_eq_none_iff {edVerify : Bytes → Bytes → Bytes → Bool} {pins : KnownKeys}
    {m : MemberInfo} : classifyMember edVerify pins m = none ↔ m.Cuts := by
  unfold classifyMember MemberInfo.Cuts
  split
  · simp [*]
  · simp [*]
  · simp [*]
  · rename_i pubkey edHex sigHex hpub hed hsig
    have hfields : (∃ pubkey edHex sigHex, m.pubkey = some pubkey ∧ m.ed25519 = some edHex ∧
        m.sig = some sigHex ∧ (CutsChar pubkey ∨ CutsChar edHex ∨ CutsChar sigHex)) ↔
        CutsChar pubkey ∨ CutsChar edHex ∨ CutsChar sigHex := by simp [hpub, hed, hsig]
    rw [hfields, ← decodeArray_eq_none_iff (n := 32), ← decodeArray_eq_none_iff (n := 32),
      ← decodeArray_eq_none_iff (n := 64)]
    cases hx : decodeArray 32 pubkey with
    | none => simp
    | some x =>
    cases he : decodeArray 32 edHex with
    | none => simp
    | some e =>
    cases hs : decodeArray 64 sigHex with
    | none => simp
    | some sig =>
      simp only [Option.bind_eq_bind, Option.bind_some, reduceCtorEq, or_self, iff_false]
      match x, e, sig with
      | none, _, _ | some _, none, _ | some _, some _, none => simp
      | some x, some e, some sig =>
        dsimp only
        split
        · simp
        · split <;> simp

end Pear
