import Pear.Lib.Codec
import Pear.Manifest

/-!
# Base64

`base64_encode` and `base64_decode` (`crypto.rs`), the wire form of an encrypted manifest. The decoder
takes groups of four bytes. It looks at where padding stands, but not at the bits that padding drops, so
what it accepts is the encodings and, for each one with padding, the spellings that differ from it in
these bits (`base64Decode_eq_ok_iff`, `Decodes.eq_encode_iff`).
-/

namespace Pear

open Lib (utf8)

/-- `B64_ALPHABET` -/
def b64Alphabet : Text :=
  "ABCDEFGHIJKLMNOPQRSTUVWXYZabcdefghijklmnopqrstuvwxyz0123456789+/".toList

/-- The character of six bits. -/
def b64Char (v : Nat) : Char := b64Alphabet.getD v 'A'

/-- The four characters of up to three bytes. -/
def encodeChunk (chunk : Bytes) : Text :=
  let n := (chunk.getD 0 0).toNat <<< 16 ||| (chunk.getD 1 0).toNat <<< 8 ||| (chunk.getD 2 0).toNat
  [b64Char ((n >>> 18) &&& 0x3f), b64Char ((n >>> 12) &&& 0x3f),
    if 1 < chunk.length then b64Char ((n >>> 6) &&& 0x3f) else '=',
    if 2 < chunk.length then b64Char (n &&& 0x3f) else '=']

/-- `base64_encode` -/
def base64Encode : Bytes → Text
  | [] => []
  | a :: b :: c :: rest => encodeChunk [a, b, c] ++ base64Encode rest
  | chunk => encodeChunk chunk

/-- Why a string is no base64. -/
inductive Base64Error where
  /-- "base64 input of length {len} is not a multiple of 4" -/
  | badLength (len : Nat)
  /-- "base64 padding is only allowed as the final 1-2 chars" -/
  | badPadding
  /-- "invalid base64 byte {byte}" -/
  | badByte (byte : UInt8)
deriving DecidableEq

/-- `b'='` -/
def padByte : UInt8 := UInt8.ofNat '='.toNat

/-- The six bits of a byte of the alphabet. -/
def sextet (b : UInt8) : Option Nat :=
  let n := b.toNat
  if 'A'.toNat ≤ n ∧ n ≤ 'Z'.toNat then some (n - 'A'.toNat)
  else if 'a'.toNat ≤ n ∧ n ≤ 'z'.toNat then some (n - 'a'.toNat + 26)
  else if '0'.toNat ≤ n ∧ n ≤ '9'.toNat then some (n - '0'.toNat + 52)
  else if n = '+'.toNat then some 62
  else if n = '/'.toNat then some 63
  else none

/-- The number of a group, from its `i`-th byte on. -/
def groupNumber (pad : Nat) : Nat → Nat → Bytes → Except Base64Error Nat
  | _, n, [] => .ok n
  | i, n, b :: bs =>
    match sextet b with
    | some v => groupNumber pad (i + 1) (n <<< 6 ||| v) bs
    | none =>
      if b = padByte ∧ 4 - pad ≤ i then groupNumber pad (i + 1) (n <<< 6 ||| 0) bs
      else .error (.badByte b)

/-- The bytes of a group. -/
def decodeGroup (last : Bool) (group : Bytes) : Except Base64Error Bytes := do
  let pad := group.count padByte
  refuseIf (0 < pad ∧ (last = false ∨ 2 < pad ∨ (group.drop (4 - pad)).all (· = padByte) = false))
    .badPadding
  let n ← groupNumber pad 0 0 group
  return UInt8.ofNat (n >>> 16) ::
    ((if pad < 2 then [UInt8.ofNat (n >>> 8)] else []) ++ if pad < 1 then [UInt8.ofNat n] else [])

/-- The loop over the groups, `chunks_exact(4)`. -/
def decodeGroups : Bytes → Except Base64Error Bytes
  | a :: b :: c :: d :: rest => do
    let out ← decodeGroup (rest = []) [a, b, c, d]
    return out ++ (← decodeGroups rest)
  | _ => return []

/-- `base64_decode` -/
def base64Decode (s : Text) : Except Base64Error Bytes := do
  refuseIf ((utf8 s).length % 4 ≠ 0) (.badLength (utf8 s).length)
  decodeGroups (utf8 s)

example : base64Decode "cGVhcg==".toList = .ok [112, 101, 97, 114] := by decide +kernel

/-! ## Six bits -/

section
variable {v w : Nat} {b : UInt8}

/-- The byte of six bits. -/
def b64Byte (v : Nat) : UInt8 := UInt8.ofNat (b64Char v).toNat

/-- Bytes of the alphabet stand for six bits each, and no other byte does. -/
theorem sextet_eq_some_iff : sextet b = some v ↔ v < 64 ∧ b = b64Byte v := by
  have hback : ∀ n < 256, ∀ v ∈ sextet (UInt8.ofNat n), v < 64 ∧ UInt8.ofNat n = b64Byte v := by
    decide +kernel
  have hforth : ∀ v < 64, sextet (b64Byte v) = some v := by decide +kernel
  constructor
  · intro h
    have hb : UInt8.ofNat b.toNat = b := UInt8.ofNat_toNat
    exact hb ▸ hback b.toNat b.toNat_lt v (by rw [hb]; exact h)
  · rintro ⟨hv, rfl⟩
    exact hforth v hv

theorem sextet_b64Byte (h : v < 64) : sextet (b64Byte v) = some v := sextet_eq_some_iff.mpr ⟨h, rfl⟩

/-- No six bits are padding. -/
theorem b64Byte_ne_pad (h : v < 64) : b64Byte v ≠ padByte := by
  have hall : ∀ v < 64, b64Byte v ≠ padByte := by decide +kernel
  exact hall v h

theorem b64Char_lt (h : v < 64) : (b64Char v).toNat < 128 := by
  have hall : ∀ v < 64, (b64Char v).toNat < 128 := by decide +kernel
  exact hall v h

theorem b64Char_inj (hv : v < 64) (hw : w < 64) (h : b64Char v = b64Char w) : v = w := by
  have hbyte : b64Byte v = b64Byte w := by rw [b64Byte, b64Byte, h]
  have hsome := sextet_b64Byte hv
  rw [hbyte, sextet_b64Byte hw] at hsome
  exact (Option.some.inj hsome).symm

/-- Shift in six bits. -/
theorem shift_or (n : Nat) (h : v < 64) : n <<< 6 ||| v = n * 64 + v := by
  rw [← Nat.shiftLeft_add_eq_or_of_lt (i := 6) h, Nat.shiftLeft_eq]

end

/-! ## Groups -/

/-- The 24 bits of four times six. -/
def sextets (v₀ v₁ v₂ v₃ : Nat) : Nat := ((v₀ * 64 + v₁) * 64 + v₂) * 64 + v₃

/-- What a group stands for: three bytes, or fewer with padding in the last one. -/
inductive GroupDecodes : Bool → Bytes → Bytes → Prop where
  | full {last : Bool} {v₀ v₁ v₂ v₃ : Nat} : v₀ < 64 → v₁ < 64 → v₂ < 64 → v₃ < 64 →
      GroupDecodes last [b64Byte v₀, b64Byte v₁, b64Byte v₂, b64Byte v₃]
        [UInt8.ofNat (sextets v₀ v₁ v₂ v₃ >>> 16), UInt8.ofNat (sextets v₀ v₁ v₂ v₃ >>> 8),
          UInt8.ofNat (sextets v₀ v₁ v₂ v₃)]
  | one {v₀ v₁ v₂ : Nat} : v₀ < 64 → v₁ < 64 → v₂ < 64 →
      GroupDecodes true [b64Byte v₀, b64Byte v₁, b64Byte v₂, padByte]
        [UInt8.ofNat (sextets v₀ v₁ v₂ 0 >>> 16), UInt8.ofNat (sextets v₀ v₁ v₂ 0 >>> 8)]
  | two {v₀ v₁ : Nat} : v₀ < 64 → v₁ < 64 →
      GroupDecodes true [b64Byte v₀, b64Byte v₁, padByte, padByte]
        [UInt8.ofNat (sextets v₀ v₁ 0 0 >>> 16)]

section
variable {last : Bool} {a b c d : UInt8} {out : Bytes} {n v pad i : Nat} {bs : Bytes}

/-- Where padding may stand. -/
theorem padding_cases (h : ¬ (0 < [a, b, c, d].count padByte ∧ (last = false ∨
      2 < [a, b, c, d].count padByte ∨
      ([a, b, c, d].drop (4 - [a, b, c, d].count padByte)).all (· = padByte) = false))) :
    (a ≠ padByte ∧ b ≠ padByte ∧ c ≠ padByte ∧ d ≠ padByte) ∨
    (last = true ∧ a ≠ padByte ∧ b ≠ padByte ∧ c ≠ padByte ∧ d = padByte) ∨
    (last = true ∧ a ≠ padByte ∧ b ≠ padByte ∧ c = padByte ∧ d = padByte) := by
  by_cases ha : a = padByte <;> by_cases hb : b = padByte <;> by_cases hc : c = padByte <;>
    by_cases hd : d = padByte <;> simp_all

/-- A byte that is no padding adds its six bits. -/
theorem groupNumber_cons_eq_ok (hb : b ≠ padByte) : groupNumber pad i n (b :: bs) = .ok v ↔
    ∃ w < 64, b = b64Byte w ∧ groupNumber pad (i + 1) (n * 64 + w) bs = .ok v := by
  rw [groupNumber]
  cases hs : sextet b with
  | none =>
    simp only [hb, false_and, if_false, reduceCtorEq, false_iff, not_exists, not_and]
    rintro w hw rfl
    rw [sextet_b64Byte hw] at hs
    cases hs
  | some w =>
    obtain ⟨hw, rfl⟩ := sextet_eq_some_iff.mp hs
    simp only [shift_or n hw]
    constructor
    · exact fun h => ⟨w, hw, rfl, h⟩
    · rintro ⟨w', hw', heq, h⟩
      have := sextet_b64Byte hw'
      rw [← heq, hs] at this
      rw [Option.some.inj this]
      exact h

/-- Padding where it may stand adds none. -/
theorem groupNumber_pad (h : 4 - pad ≤ i) :
    groupNumber pad i n (padByte :: bs) = groupNumber pad (i + 1) (n * 64) bs := by
  have hpad : sextet padByte = none := by decide
  rw [groupNumber, hpad]
  simp only [true_and, h, if_true, shift_or n (show 0 < 64 by decide), Nat.add_zero]

theorem groupNumber_nil : groupNumber pad i n [] = .ok v ↔ n = v := by
  rw [groupNumber]
  exact ⟨Except.ok.inj, congrArg _⟩

/-- Six bits add themselves. -/
theorem groupNumber_b64Byte (hv : v < 64) :
    groupNumber pad i n (b64Byte v :: bs) = groupNumber pad (i + 1) (n * 64 + v) bs := by
  rw [groupNumber, sextet_b64Byte hv]
  exact congrArg (groupNumber pad (i + 1) · bs) (shift_or n hv)

/-- The bytes of a group, by its padding. -/
theorem decodeGroup_of_count (pad : Nat) {group : Bytes} (hpad : group.count padByte = pad)
    (hplace : ¬ (0 < pad ∧ (last = false ∨ 2 < pad ∨
      (group.drop (4 - pad)).all (· = padByte) = false))) :
    decodeGroup last group = .ok out ↔ ∃ n, groupNumber pad 0 0 group = .ok n ∧
      UInt8.ofNat (n >>> 16) ::
        ((if pad < 2 then [UInt8.ofNat (n >>> 8)] else []) ++
          if pad < 1 then [UInt8.ofNat n] else []) = out := by
  subst hpad
  unfold decodeGroup
  rw [refuseIf_bind_eq_ok_iff, bind_eq_ok_iff, and_iff_right hplace]
  exact ⟨fun ⟨n, hn, hout⟩ => ⟨n, hn, Except.ok.inj hout⟩,
    fun ⟨n, hn, hout⟩ => ⟨n, hn, congrArg _ hout⟩⟩

/-- **A group is decoded to what it stands for.** -/
theorem decodeGroup_eq_ok_iff : decodeGroup last [a, b, c, d] = .ok out ↔
    GroupDecodes last [a, b, c, d] out := by
  have hstop₁ : ∀ m, groupNumber 1 (0 + 1 + 1 + 1) m [padByte] = .ok (m * 64) := fun m =>
    groupNumber_pad (by decide)
  have hstop₂ : ∀ m, groupNumber 2 (0 + 1 + 1) m [padByte, padByte] = .ok (m * 64 * 64) := fun m =>
    (groupNumber_pad (by decide)).trans (groupNumber_pad (by decide))
  constructor
  · intro h
    have hplace := h
    unfold decodeGroup at hplace
    rcases padding_cases (refuseIf_bind_eq_ok_iff.mp hplace).1 with ⟨ha, hb, hc, hd⟩ |
      ⟨rfl, ha, hb, hc, rfl⟩ | ⟨rfl, ha, hb, rfl, rfl⟩
    · obtain ⟨n, hn, rfl⟩ := (decodeGroup_of_count 0 (by simp [*]) (by simp)).mp h
      simp only [groupNumber_cons_eq_ok ha, groupNumber_cons_eq_ok hb, groupNumber_cons_eq_ok hc,
        groupNumber_cons_eq_ok hd, groupNumber_nil] at hn
      obtain ⟨v₀, h₀, rfl, v₁, h₁, rfl, v₂, h₂, rfl, v₃, h₃, rfl, rfl⟩ := hn
      simpa [sextets] using GroupDecodes.full h₀ h₁ h₂ h₃
    · obtain ⟨n, hn, rfl⟩ := (decodeGroup_of_count 1 (by simp [*]) (by simp)).mp h
      simp only [groupNumber_cons_eq_ok ha, groupNumber_cons_eq_ok hb, groupNumber_cons_eq_ok hc,
        hstop₁, Except.ok.injEq] at hn
      obtain ⟨v₀, h₀, rfl, v₁, h₁, rfl, v₂, h₂, rfl, rfl⟩ := hn
      simpa [sextets] using GroupDecodes.one h₀ h₁ h₂
    · obtain ⟨n, hn, rfl⟩ := (decodeGroup_of_count 2 (by simp [*]) (by simp)).mp h
      simp only [groupNumber_cons_eq_ok ha, groupNumber_cons_eq_ok hb, hstop₂,
        Except.ok.injEq] at hn
      obtain ⟨v₀, h₀, rfl, v₁, h₁, rfl, rfl⟩ := hn
      simpa [sextets] using GroupDecodes.two h₀ h₁
  · intro h
    cases h with
    | @full _ v₀ v₁ v₂ v₃ h₀ h₁ h₂ h₃ =>
      have hcount : [b64Byte v₀, b64Byte v₁, b64Byte v₂, b64Byte v₃].count padByte = 0 := by
        simp [b64Byte_ne_pad h₀, b64Byte_ne_pad h₁, b64Byte_ne_pad h₂, b64Byte_ne_pad h₃]
      refine (decodeGroup_of_count _ hcount (by simp)).mpr ⟨sextets v₀ v₁ v₂ v₃, ?_, rfl⟩
      rw [groupNumber_b64Byte h₀, groupNumber_b64Byte h₁, groupNumber_b64Byte h₂,
        groupNumber_b64Byte h₃, groupNumber_nil]
      simp [sextets]
    | @one v₀ v₁ v₂ h₀ h₁ h₂ =>
      have hcount : [b64Byte v₀, b64Byte v₁, b64Byte v₂, padByte].count padByte = 1 := by
        simp [b64Byte_ne_pad h₀, b64Byte_ne_pad h₁, b64Byte_ne_pad h₂]
      refine (decodeGroup_of_count _ hcount (by simp)).mpr ⟨sextets v₀ v₁ v₂ 0, ?_, rfl⟩
      rw [groupNumber_b64Byte h₀, groupNumber_b64Byte h₁, groupNumber_b64Byte h₂, hstop₁]
      simp [sextets]
    | @two v₀ v₁ h₀ h₁ =>
      have hcount : [b64Byte v₀, b64Byte v₁, padByte, padByte].count padByte = 2 := by
        simp [b64Byte_ne_pad h₀, b64Byte_ne_pad h₁]
      refine (decodeGroup_of_count _ hcount (by simp)).mpr ⟨sextets v₀ v₁ 0 0, ?_, rfl⟩
      rw [groupNumber_b64Byte h₀, groupNumber_b64Byte h₁, hstop₂]
      simp [sextets]

end

/-! ## Strings -/

/-- What a string stands for. -/
inductive Decodes : Text → Bytes → Prop where
  | nil : Decodes [] []
  | full {v₀ v₁ v₂ v₃ : Nat} {s : Text} {b : Bytes} : v₀ < 64 → v₁ < 64 → v₂ < 64 → v₃ < 64 →
      Decodes s b → Decodes (b64Char v₀ :: b64Char v₁ :: b64Char v₂ :: b64Char v₃ :: s)
        (UInt8.ofNat (sextets v₀ v₁ v₂ v₃ >>> 16) :: UInt8.ofNat (sextets v₀ v₁ v₂ v₃ >>> 8) ::
          UInt8.ofNat (sextets v₀ v₁ v₂ v₃) :: b)
  | one {v₀ v₁ v₂ : Nat} : v₀ < 64 → v₁ < 64 → v₂ < 64 →
      Decodes [b64Char v₀, b64Char v₁, b64Char v₂, '=']
        [UInt8.ofNat (sextets v₀ v₁ v₂ 0 >>> 16), UInt8.ofNat (sextets v₀ v₁ v₂ 0 >>> 8)]
  | two {v₀ v₁ : Nat} : v₀ < 64 → v₁ < 64 →
      Decodes [b64Char v₀, b64Char v₁, '=', '='] [UInt8.ofNat (sextets v₀ v₁ 0 0 >>> 16)]

section
variable {s : Text} {b : Bytes} {v v₀ v₁ v₂ v₃ : Nat}

theorem utf8_b64Char (h : v < 64) (s : Text) : utf8 (b64Char v :: s) = b64Byte v :: utf8 s :=
  Lib.utf8_cons_ascii (b64Char_lt h) s

theorem utf8_pad (s : Text) : utf8 ('=' :: s) = padByte :: utf8 s :=
  Lib.utf8_cons_ascii (by decide) s

/-- A string begins with one group. -/
theorem group_inj {x₀ x₁ x₂ x₃ y₀ y₁ y₂ y₃ : UInt8} {r r' : Bytes}
    (h : x₀ :: x₁ :: x₂ :: x₃ :: r = y₀ :: y₁ :: y₂ :: y₃ :: r') :
    x₀ = y₀ ∧ x₁ = y₁ ∧ x₂ = y₂ ∧ x₃ = y₃ ∧ r = r' := by
  simpa only [List.cons.injEq] using h

/-- **The loop decodes what stands for something.** -/
theorem decodeGroups_eq_ok_iff : ∀ {bs b : Bytes}, bs.length % 4 = 0 →
    (decodeGroups bs = .ok b ↔ ∃ t, Decodes t b ∧ bs = utf8 t)
  | [], b, _ => by
    constructor
    · intro h
      obtain rfl := Except.ok.inj h
      exact ⟨[], .nil, rfl⟩
    · rintro ⟨t, ht, hbs⟩
      obtain rfl : t = [] := Lib.utf8_injective hbs.symm
      cases ht
      rfl
  | [_], _, h | [_, _], _, h | [_, _, _], _, h => nomatch h
  | x₀ :: x₁ :: x₂ :: x₃ :: rest, b, hlen => by
    have hrest : rest.length % 4 = 0 := by
      simp only [List.length_cons] at hlen
      omega
    rw [decodeGroups, bind_eq_ok_iff]
    constructor
    · rintro ⟨out, hout, hafter⟩
      obtain ⟨b', hb', hdone⟩ := bind_eq_ok_iff.mp hafter
      obtain rfl := Except.ok.inj hdone
      obtain ⟨t, ht, rfl⟩ := (decodeGroups_eq_ok_iff hrest).mp hb'
      have hgroup := decodeGroup_eq_ok_iff.mp hout
      generalize hlast : decide (utf8 t = []) = last at hgroup
      have hend : last = true → t = [] := by
        rintro rfl
        exact Lib.utf8_injective (of_decide_eq_true hlast)
      cases hgroup with
      | full h₀ h₁ h₂ h₃ =>
        refine ⟨_, .full h₀ h₁ h₂ h₃ ht, ?_⟩
        rw [utf8_b64Char h₀, utf8_b64Char h₁, utf8_b64Char h₂, utf8_b64Char h₃]
      | one h₀ h₁ h₂ =>
        obtain rfl := hend rfl
        cases ht
        refine ⟨_, .one h₀ h₁ h₂, ?_⟩
        rw [utf8_b64Char h₀, utf8_b64Char h₁, utf8_b64Char h₂, utf8_pad]
      | two h₀ h₁ =>
        obtain rfl := hend rfl
        cases ht
        refine ⟨_, .two h₀ h₁, ?_⟩
        rw [utf8_b64Char h₀, utf8_b64Char h₁, utf8_pad, utf8_pad]
    · rintro ⟨t, ht, hbs⟩
      cases ht with
      | nil => cases hbs
      | full h₀ h₁ h₂ h₃ ht =>
        rw [utf8_b64Char h₀, utf8_b64Char h₁, utf8_b64Char h₂, utf8_b64Char h₃] at hbs
        obtain ⟨rfl, rfl, rfl, rfl, htail⟩ := group_inj hbs
        exact ⟨_, decodeGroup_eq_ok_iff.mpr (.full h₀ h₁ h₂ h₃),
          bind_eq_ok_iff.mpr ⟨_, (decodeGroups_eq_ok_iff hrest).mpr ⟨_, ht, htail⟩, rfl⟩⟩
      | one h₀ h₁ h₂ =>
        rw [utf8_b64Char h₀, utf8_b64Char h₁, utf8_b64Char h₂, utf8_pad] at hbs
        obtain ⟨rfl, rfl, rfl, rfl, rfl⟩ := group_inj hbs
        exact ⟨_, decodeGroup_eq_ok_iff.mpr (.one h₀ h₁ h₂), rfl⟩
      | two h₀ h₁ =>
        rw [utf8_b64Char h₀, utf8_b64Char h₁, utf8_pad, utf8_pad] at hbs
        obtain ⟨rfl, rfl, rfl, rfl, rfl⟩ := group_inj hbs
        exact ⟨_, decodeGroup_eq_ok_iff.mpr (.two h₀ h₁), rfl⟩

/-- What stands for something has groups of four bytes. -/
theorem Decodes.length (h : Decodes s b) : (utf8 s).length % 4 = 0 := by
  induction h with
  | nil => rfl
  | full h₀ h₁ h₂ h₃ _ ih =>
    rw [utf8_b64Char h₀, utf8_b64Char h₁, utf8_b64Char h₂, utf8_b64Char h₃]
    simp only [List.length_cons]
    omega
  | one h₀ h₁ h₂ =>
    rw [utf8_b64Char h₀, utf8_b64Char h₁, utf8_b64Char h₂, utf8_pad]
    simp [utf8]
  | two h₀ h₁ =>
    rw [utf8_b64Char h₀, utf8_b64Char h₁, utf8_pad, utf8_pad]
    simp [utf8]

/-- **`base64_decode` accepts what stands for something.** -/
theorem base64Decode_eq_ok_iff : base64Decode s = .ok b ↔ Decodes s b := by
  rw [base64Decode, refuseIf_bind_eq_ok_iff]
  constructor
  · rintro ⟨hlen, h⟩
    obtain ⟨t, ht, heq⟩ := (decodeGroups_eq_ok_iff (not_not.mp hlen)).mp h
    exact Lib.utf8_injective heq ▸ ht
  · intro h
    exact ⟨not_not.mpr h.length, (decodeGroups_eq_ok_iff h.length).mpr ⟨s, h, rfl⟩⟩

end

/-! ## Canonical strings -/

/-- A string that ends in padding which drops bits: six bits before one `=` that are no multiple of
4, or before two that are no multiple of 16. -/
def StrayBits (s : Text) : Prop :=
  ∃ (vs : List Nat) (v : Nat), (∀ w ∈ vs, w < 64) ∧ v < 64 ∧
    (s = vs.map b64Char ++ [b64Char v, '='] ∧ vs.length % 4 = 2 ∧ v % 4 ≠ 0 ∨
      s = vs.map b64Char ++ [b64Char v, '=', '='] ∧ vs.length % 4 = 1 ∧ v % 16 ≠ 0)

section
variable {s : Text} {b : Bytes} {v v₀ v₁ v₂ v₃ : Nat} {x y z : UInt8}

/-- The number of three bytes. -/
theorem shift_or_bytes (x y z : UInt8) :
    x.toNat <<< 16 ||| y.toNat <<< 8 ||| z.toNat = (x.toNat * 256 + y.toNat) * 256 + z.toNat := by
  have hx : x.toNat <<< 16 ||| y.toNat <<< 8 = (x.toNat * 256 + y.toNat) <<< 8 := by
    have hlt : y.toNat <<< 8 < 2 ^ 16 := by
      rw [Nat.shiftLeft_eq]
      have := y.toNat_lt
      omega
    rw [← Nat.shiftLeft_add_eq_or_of_lt hlt]
    simp only [Nat.shiftLeft_eq]
    omega
  rw [hx, ← Nat.shiftLeft_add_eq_or_of_lt z.toNat_lt, Nat.shiftLeft_eq]

theorem and_sixBits (n k : Nat) : (n >>> k) &&& 0x3f = n / 2 ^ k % 64 := by
  rw [Nat.shiftRight_eq_div_pow]
  exact Nat.and_two_pow_sub_one_eq_mod _ 6

theorem encodeChunk_three (x y z : UInt8) :
    let n := (x.toNat * 256 + y.toNat) * 256 + z.toNat
    encodeChunk [x, y, z] = [b64Char (n / 2 ^ 18 % 64), b64Char (n / 2 ^ 12 % 64),
      b64Char (n / 2 ^ 6 % 64), b64Char (n % 64)] := by
  have hlow := and_sixBits ((x.toNat * 256 + y.toNat) * 256 + z.toNat) 0
  rw [Nat.shiftRight_zero, Nat.pow_zero, Nat.div_one] at hlow
  simp [encodeChunk, shift_or_bytes, and_sixBits, hlow]

theorem encodeChunk_two (x y : UInt8) :
    let n := (x.toNat * 256 + y.toNat) * 256
    encodeChunk [x, y] = [b64Char (n / 2 ^ 18 % 64), b64Char (n / 2 ^ 12 % 64),
      b64Char (n / 2 ^ 6 % 64), '='] := by
  have h := shift_or_bytes x y 0
  simp [encodeChunk, and_sixBits] at h ⊢
  simp [h]

theorem encodeChunk_one (x : UInt8) :
    let n := x.toNat * 256 * 256
    encodeChunk [x] = [b64Char (n / 2 ^ 18 % 64), b64Char (n / 2 ^ 12 % 64), '=', '='] := by
  have h := shift_or_bytes x 0 0
  simp [encodeChunk, and_sixBits] at h ⊢
  simp [h]

/-- The bytes of 24 bits. -/
theorem toNat_ofNat_shift (n k : Nat) : (UInt8.ofNat (n >>> k)).toNat = n / 2 ^ k % 256 := by
  rw [UInt8.toNat_ofNat', Nat.shiftRight_eq_div_pow]

/-- Four characters are those of the bytes they stand for. -/
theorem encodeChunk_sextets (h₀ : v₀ < 64) (h₁ : v₁ < 64) (h₂ : v₂ < 64) (h₃ : v₃ < 64) :
    encodeChunk [UInt8.ofNat (sextets v₀ v₁ v₂ v₃ >>> 16), UInt8.ofNat (sextets v₀ v₁ v₂ v₃ >>> 8),
      UInt8.ofNat (sextets v₀ v₁ v₂ v₃)] = [b64Char v₀, b64Char v₁, b64Char v₂, b64Char v₃] := by
  have hn : (sextets v₀ v₁ v₂ v₃ / 2 ^ 16 % 256 * 256 + sextets v₀ v₁ v₂ v₃ / 2 ^ 8 % 256) * 256 +
      sextets v₀ v₁ v₂ v₃ % 256 = sextets v₀ v₁ v₂ v₃ := by
    unfold sextets
    omega
  have hlow : (UInt8.ofNat (sextets v₀ v₁ v₂ v₃)).toNat = sextets v₀ v₁ v₂ v₃ % 256 :=
    UInt8.toNat_ofNat'
  rw [encodeChunk_three, toNat_ofNat_shift, toNat_ofNat_shift, hlow, hn]
  have e₀ : sextets v₀ v₁ v₂ v₃ / 2 ^ 18 % 64 = v₀ := by unfold sextets; omega
  have e₁ : sextets v₀ v₁ v₂ v₃ / 2 ^ 12 % 64 = v₁ := by unfold sextets; omega
  have e₂ : sextets v₀ v₁ v₂ v₃ / 2 ^ 6 % 64 = v₂ := by unfold sextets; omega
  have e₃ : sextets v₀ v₁ v₂ v₃ % 64 = v₃ := by unfold sextets; omega
  rw [e₀, e₁, e₂, e₃]

/-- Before one `=`, the last two bits are dropped. -/
theorem encodeChunk_sextets_one (h₀ : v₀ < 64) (h₁ : v₁ < 64) (h₂ : v₂ < 64) :
    encodeChunk [UInt8.ofNat (sextets v₀ v₁ v₂ 0 >>> 16), UInt8.ofNat (sextets v₀ v₁ v₂ 0 >>> 8)] =
      [b64Char v₀, b64Char v₁, b64Char (v₂ - v₂ % 4), '='] := by
  rw [encodeChunk_two, toNat_ofNat_shift, toNat_ofNat_shift]
  have hn : (sextets v₀ v₁ v₂ 0 / 2 ^ 16 % 256 * 256 + sextets v₀ v₁ v₂ 0 / 2 ^ 8 % 256) * 256 =
      sextets v₀ v₁ (v₂ - v₂ % 4) 0 := by
    unfold sextets
    omega
  rw [hn]
  have e₀ : sextets v₀ v₁ (v₂ - v₂ % 4) 0 / 2 ^ 18 % 64 = v₀ := by unfold sextets; omega
  have e₁ : sextets v₀ v₁ (v₂ - v₂ % 4) 0 / 2 ^ 12 % 64 = v₁ := by unfold sextets; omega
  have e₂ : sextets v₀ v₁ (v₂ - v₂ % 4) 0 / 2 ^ 6 % 64 = v₂ - v₂ % 4 := by unfold sextets; omega
  rw [e₀, e₁, e₂]

/-- Before two, the last four bits are. -/
theorem encodeChunk_sextets_two (h₀ : v₀ < 64) (h₁ : v₁ < 64) :
    encodeChunk [UInt8.ofNat (sextets v₀ v₁ 0 0 >>> 16)] =
      [b64Char v₀, b64Char (v₁ - v₁ % 16), '=', '='] := by
  rw [encodeChunk_one, toNat_ofNat_shift]
  have hn : sextets v₀ v₁ 0 0 / 2 ^ 16 % 256 * 256 * 256 = sextets v₀ (v₁ - v₁ % 16) 0 0 := by
    unfold sextets
    omega
  rw [hn]
  have e₀ : sextets v₀ (v₁ - v₁ % 16) 0 0 / 2 ^ 18 % 64 = v₀ := by unfold sextets; omega
  have e₁ : sextets v₀ (v₁ - v₁ % 16) 0 0 / 2 ^ 12 % 64 = v₁ - v₁ % 16 := by unfold sextets; omega
  rw [e₀, e₁]

/-- A byte by its number. -/
theorem ofNat_shift_eq {n k : Nat} (h : n / 2 ^ k % 256 = x.toNat) : UInt8.ofNat (n >>> k) = x :=
  UInt8.toNat_inj.mp ((toNat_ofNat_shift n k).trans h)

/-- An encoding stands for its bytes. -/
theorem decodes_encode : ∀ b : Bytes, Decodes (base64Encode b) b
  | [] => .nil
  | [x] => by
    have hx := x.toNat_lt
    let n := x.toNat * 256 * 256
    have h : Decodes [b64Char (n / 2 ^ 18 % 64), b64Char (n / 2 ^ 12 % 64), '=', '=']
        [UInt8.ofNat (sextets (n / 2 ^ 18 % 64) (n / 2 ^ 12 % 64) 0 0 >>> 16)] :=
      .two (by omega) (by omega)
    rw [ofNat_shift_eq (x := x) (by unfold sextets; omega)] at h
    rw [show base64Encode [x] = _ from encodeChunk_one x]
    exact h
  | [x, y] => by
    have hx := x.toNat_lt
    have hy := y.toNat_lt
    let n := (x.toNat * 256 + y.toNat) * 256
    let m := sextets (n / 2 ^ 18 % 64) (n / 2 ^ 12 % 64) (n / 2 ^ 6 % 64) 0
    have h : Decodes [b64Char (n / 2 ^ 18 % 64), b64Char (n / 2 ^ 12 % 64),
        b64Char (n / 2 ^ 6 % 64), '='] [UInt8.ofNat (m >>> 16), UInt8.ofNat (m >>> 8)] :=
      .one (by omega) (by omega) (by omega)
    rw [ofNat_shift_eq (x := x) (by unfold m sextets; omega),
      ofNat_shift_eq (x := y) (by unfold m sextets; omega)] at h
    rw [show base64Encode [x, y] = _ from encodeChunk_two x y]
    exact h
  | x :: y :: z :: rest => by
    have hx := x.toNat_lt
    have hy := y.toNat_lt
    have hz := z.toNat_lt
    let n := (x.toNat * 256 + y.toNat) * 256 + z.toNat
    let m := sextets (n / 2 ^ 18 % 64) (n / 2 ^ 12 % 64) (n / 2 ^ 6 % 64) (n % 64)
    have h : Decodes (b64Char (n / 2 ^ 18 % 64) :: b64Char (n / 2 ^ 12 % 64) ::
        b64Char (n / 2 ^ 6 % 64) :: b64Char (n % 64) :: base64Encode rest)
        (UInt8.ofNat (m >>> 16) :: UInt8.ofNat (m >>> 8) :: UInt8.ofNat m :: rest) :=
      .full (by omega) (by omega) (by omega) (by omega) (decodes_encode rest)
    have hlow : UInt8.ofNat m = z := by
      apply UInt8.toNat_inj.mp
      rw [UInt8.toNat_ofNat']
      unfold m sextets
      omega
    rw [ofNat_shift_eq (x := x) (by unfold m sextets; omega),
      ofNat_shift_eq (x := y) (by unfold m sextets; omega), hlow] at h
    rw [base64Encode, encodeChunk_three]
    exact h

/-- No six bits are written as padding. -/
theorem b64Char_ne_pad (h : v < 64) : b64Char v ≠ '=' := by
  have hall : ∀ v < 64, b64Char v ≠ '=' := by decide +kernel
  exact hall v h

/-- A full group brings no stray bits. -/
theorem strayBits_full (h₀ : v₀ < 64) (h₁ : v₁ < 64) (h₂ : v₂ < 64) (h₃ : v₃ < 64) :
    StrayBits (b64Char v₀ :: b64Char v₁ :: b64Char v₂ :: b64Char v₃ :: s) ↔ StrayBits s := by
  constructor
  · rintro ⟨vs, v, hvs, hv, ⟨hs, hlen, hstray⟩ | ⟨hs, hlen, hstray⟩⟩
    · match vs, hlen with
      | [w₀, w₁], _ =>
        simp only [List.map_cons, List.map_nil, List.cons_append, List.nil_append, List.cons.injEq]
          at hs
        exact absurd hs.2.2.2.1 (b64Char_ne_pad h₃)
      | _ :: _ :: _ :: _ :: vs, hlen =>
        simp only [List.map_cons, List.cons_append, List.cons.injEq] at hs
        refine ⟨vs, v, fun w hw => hvs w (by simp [hw]), hv, .inl ⟨hs.2.2.2.2, ?_, hstray⟩⟩
        simp only [List.length_cons] at hlen
        omega
    · match vs, hlen with
      | [w₀], _ =>
        simp only [List.map_cons, List.map_nil, List.cons_append, List.nil_append, List.cons.injEq]
          at hs
        exact absurd hs.2.2.1 (b64Char_ne_pad h₂)
      | _ :: _ :: _ :: _ :: vs, hlen =>
        simp only [List.map_cons, List.cons_append, List.cons.injEq] at hs
        refine ⟨vs, v, fun w hw => hvs w (by simp [hw]), hv, .inr ⟨hs.2.2.2.2, ?_, hstray⟩⟩
        simp only [List.length_cons] at hlen
        omega
  · rintro ⟨vs, v, hvs, hv, hcases⟩
    have hfour : (v₀ :: v₁ :: v₂ :: v₃ :: vs).length % 4 = vs.length % 4 := by
      simp only [List.length_cons]
      omega
    refine ⟨v₀ :: v₁ :: v₂ :: v₃ :: vs, v, by simpa [h₀, h₁, h₂, h₃] using hvs, hv, ?_⟩
    rw [hfour]
    refine hcases.imp (fun h => ⟨?_, h.2⟩) fun h => ⟨?_, h.2⟩
    · rw [h.1]
      rfl
    · rw [h.1]
      rfl

/-- The bits that one `=` drops. -/
theorem strayBits_one (h₀ : v₀ < 64) (h₁ : v₁ < 64) (h₂ : v₂ < 64) :
    StrayBits [b64Char v₀, b64Char v₁, b64Char v₂, '='] ↔ v₂ % 4 ≠ 0 := by
  constructor
  · rintro ⟨vs, v, -, hv, ⟨hs, hlen, hstray⟩ | ⟨hs, hlen, hstray⟩⟩
    · match vs, hlen with
      | [w₀, w₁], _ =>
        simp only [List.map_cons, List.map_nil, List.cons_append, List.nil_append, List.cons.injEq]
          at hs
        rwa [b64Char_inj h₂ hv hs.2.2.1]
      | _ :: _ :: _ :: _ :: vs, _ => simp at hs
    · match vs, hlen with
      | [w₀], _ =>
        simp only [List.map_cons, List.map_nil, List.cons_append, List.nil_append, List.cons.injEq]
          at hs
        exact absurd hs.2.2.1 (b64Char_ne_pad h₂)
      | _ :: _ :: _ :: _ :: vs, _ => simp at hs
  · exact fun h => ⟨[v₀, v₁], v₂, by simp [h₀, h₁], h₂, .inl ⟨rfl, rfl, h⟩⟩

/-- The bits that two drop. -/
theorem strayBits_two (h₀ : v₀ < 64) (h₁ : v₁ < 64) :
    StrayBits [b64Char v₀, b64Char v₁, '=', '='] ↔ v₁ % 16 ≠ 0 := by
  constructor
  · rintro ⟨vs, v, -, hv, ⟨hs, hlen, hstray⟩ | ⟨hs, hlen, hstray⟩⟩
    · match vs, hlen with
      | [w₀, w₁], _ =>
        simp only [List.map_cons, List.map_nil, List.cons_append, List.nil_append, List.cons.injEq]
          at hs
        exact absurd hs.2.2.1.symm (b64Char_ne_pad hv)
      | _ :: _ :: _ :: _ :: vs, _ => simp at hs
    · match vs, hlen with
      | [w₀], _ =>
        simp only [List.map_cons, List.map_nil, List.cons_append, List.nil_append, List.cons.injEq]
          at hs
        rwa [b64Char_inj h₁ hv hs.2.1]
      | _ :: _ :: _ :: _ :: vs, _ => simp at hs
  · exact fun h => ⟨[v₀], v₁, by simp [h₀], h₁, .inr ⟨rfl, rfl, h⟩⟩

/-- Six bits stay as they are when none of the last are set. -/
theorem b64Char_sub_mod_iff {k : Nat} (h : v < 64) : b64Char v = b64Char (v - v % k) ↔ v % k = 0 := by
  have hle : v % k ≤ v := Nat.mod_le v k
  constructor
  · intro heq
    have := b64Char_inj h (by omega) heq
    omega
  · intro hzero
    rw [hzero, Nat.sub_zero]

/-- **What stands for bytes is their encoding unless it has stray bits.** -/
theorem Decodes.eq_encode_iff (h : Decodes s b) : s = base64Encode b ↔ ¬ StrayBits s := by
  induction h with
  | nil =>
    refine ⟨?_, fun _ => rfl⟩
    rintro - ⟨vs, v, -, -, ⟨hs, -⟩ | ⟨hs, -⟩⟩
    · simp at hs
    · simp at hs
  | full h₀ h₁ h₂ h₃ _ ih =>
    rw [strayBits_full h₀ h₁ h₂ h₃, ← ih, base64Encode, encodeChunk_sextets h₀ h₁ h₂ h₃]
    simp
  | one h₀ h₁ h₂ =>
    rw [strayBits_one h₀ h₁ h₂, not_not, ← b64Char_sub_mod_iff h₂,
      show base64Encode [_, _] = _ from encodeChunk_sextets_one h₀ h₁ h₂]
    simp
  | two h₀ h₁ =>
    rw [strayBits_two h₀ h₁, not_not, ← b64Char_sub_mod_iff h₁,
      show base64Encode [_] = _ from encodeChunk_sextets_two h₀ h₁]
    simp

/-- Stray bits do not keep a string from standing for something. -/
theorem exists_decodes : ∀ {vs : List Nat}, (∀ w ∈ vs, w < 64) → v < 64 →
    (vs.length % 4 = 2 → ∃ b, Decodes (vs.map b64Char ++ [b64Char v, '=']) b) ∧
    (vs.length % 4 = 1 → ∃ b, Decodes (vs.map b64Char ++ [b64Char v, '=', '=']) b)
  | [], _, _ | [_, _, _], _, _ => ⟨nofun, nofun⟩
  | [w₀], hvs, hv => ⟨nofun, fun _ => ⟨_, .two (hvs w₀ (by simp)) hv⟩⟩
  | [w₀, w₁], hvs, hv => ⟨fun _ => ⟨_, .one (hvs w₀ (by simp)) (hvs w₁ (by simp)) hv⟩, nofun⟩
  | w₀ :: w₁ :: w₂ :: w₃ :: vs, hvs, hv => by
    obtain ⟨hone, htwo⟩ := exists_decodes
      (fun w (hw : w ∈ vs) => hvs w (by simp [hw])) hv
    have hfull : ∀ {t : Text}, (∃ b, Decodes t b) →
        ∃ b, Decodes (b64Char w₀ :: b64Char w₁ :: b64Char w₂ :: b64Char w₃ :: t) b :=
      fun ⟨b, hb⟩ => ⟨_, .full (hvs w₀ (by simp)) (hvs w₁ (by simp)) (hvs w₂ (by simp))
        (hvs w₃ (by simp)) hb⟩
    simp only [List.length_cons]
    exact ⟨fun hlen => hfull (hone (by omega)), fun hlen => hfull (htwo (by omega))⟩

end

/-- **`base64_decode` accepts a string as its bytes' encoding only, exactly when the string has no stray
bits.** -/
theorem base64_canonical_iff (s : Text) :
    (∀ b : Bytes, base64Decode s = .ok b ↔ s = base64Encode b) ↔ ¬ StrayBits s := by
  constructor
  · rintro h ⟨vs, v, hvs, hv, hcases⟩
    obtain ⟨b, hb⟩ : ∃ b, Decodes s b := by
      rcases hcases with ⟨rfl, hlen, -⟩ | ⟨rfl, hlen, -⟩
      · exact (exists_decodes hvs hv).1 hlen
      · exact (exists_decodes hvs hv).2 hlen
    exact hb.eq_encode_iff.mp ((h b).mp (base64Decode_eq_ok_iff.mpr hb)) ⟨vs, v, hvs, hv, hcases⟩
  · intro h b
    rw [base64Decode_eq_ok_iff]
    constructor
    · exact fun hb => hb.eq_encode_iff.mpr h
    · rintro rfl
      exact decodes_encode b

/-- **Two spellings of one byte are accepted**: `QR==` is no encoding. -/
theorem base64_two_spellings : base64Decode "QQ==".toList = .ok [65] ∧
    base64Decode "QR==".toList = .ok [65] ∧ base64Encode [65] = "QQ==".toList := by
  decide +kernel

end Pear
