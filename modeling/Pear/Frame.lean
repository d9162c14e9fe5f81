import Pear.Lib.Codec
import Pear.Manifest

/-!
# The chunk frame

The frame of the batched chunk requests (`chunk_frame.rs`): a count, and for each entry a hash of 64
lowercase hex digits, the length of a blob and the blob. An entry's reader is exact
(`reads_decodeEntry`), so the loop is (`Lib.Reads.many`), and the frame is a bijection between the
lists whose hashes are well formed and the byte strings that `decode` accepts (`frame_bijection`).
-/

namespace Pear.Frame

open Lib (Fallible utf8 ofUtf8 leBytes ofLeBytes)

/-- `GET_MANY_MAX_HASHES` -/
def getManyMaxHashes : Nat := 128

/-- `GET_MANY_TARGET_BYTES` -/
def getManyTargetBytes : Nat := 32 * 1024 * 1024

/-- `HASH_LEN` -/
def hashLen : Nat := 64

/-- `ENTRY_HEADER` -/
def entryHeader : Nat := hashLen + 8

/-- Why a frame is refused, with what the messages quote. -/
inductive FrameError where
  /-- "chunk frame is {len} bytes, shorter than the 4-byte count" -/
  | short (len : Nat)
  /-- "chunk frame ends inside entry {i}: {left} byte(s) left, need at least {ENTRY_HEADER}" -/
  | ends (i left : Nat)
  /-- "chunk frame entry {i}: hash is not 64 lowercase hex chars" -/
  | badHash (i : Nat)
  /-- "chunk frame entry {i}: blob is {len} bytes but only {left} remain" -/
  | badBlob (i len left : Nat)
  /-- "chunk frame has {left} trailing byte(s) after {count} entries" -/
  | trailing (left count : Nat)
deriving DecidableEq

/-- An entry as it is written. -/
def encodeEntry (e : Text × Bytes) : Bytes := utf8 e.1 ++ (leBytes 8 e.2.length ++ e.2)

/-- `encode`. The count and the lengths are cut to their width; a hash of another length than 64, which
the debug assertion refuses, is written as it is. -/
def encode (entries : List (Text × Bytes)) : Bytes :=
  leBytes 4 entries.length ++ entries.flatMap encodeEntry

/-- A slice `b[lo..hi]`, which panics out of bounds. -/
def slice (b : Bytes) (lo hi : Nat) : Fallible FrameError Bytes :=
  .unwrap (if lo ≤ hi ∧ hi ≤ b.length then some ((b.take hi).drop lo) else none)

/-- `from_le_bytes(b.try_into().unwrap())` for an array of `n` bytes. -/
def fromLe (n : Nat) (b : Bytes) : Fallible FrameError Nat :=
  .unwrap (if b.length = n then some (ofLeBytes b) else none)

/-- `is_ascii_digit() || (b'a'..=b'f').contains(b)` -/
def isLowerHexByte (b : UInt8) : Bool :=
  ('0'.toNat ≤ b.toNat && b.toNat ≤ '9'.toNat) || ('a'.toNat ≤ b.toNat && b.toNat ≤ 'f'.toNat)

/-- The `i`-th round of the loop of `decode`, on what remains of the frame. -/
def decodeEntry (i : Nat) (rest : Bytes) : Fallible FrameError ((Text × Bytes) × Bytes) := do
  .failIf (rest.length < entryHeader) (.ends i rest.length)
  let hashBytes ← slice rest 0 hashLen
  .failIf (hashBytes.all isLowerHexByte = false) (.badHash i)
  let hash ← .unwrap (ofUtf8 hashBytes)
  let blobLen ← fromLe 8 (← slice rest hashLen entryHeader)
  let rest ← slice rest entryHeader rest.length
  .failIf (rest.length < blobLen) (.badBlob i blobLen rest.length)
  let blob ← slice rest 0 blobLen
  let rest ← slice rest blobLen rest.length
  return ((hash, blob), rest)

/-- `decode` -/
def decode (bytes : Bytes) : Fallible FrameError (List (Text × Bytes)) := do
  .failIf (bytes.length < 4) (.short bytes.length)
  let count ← fromLe 4 (← slice bytes 0 4)
  let rest ← slice bytes 4 bytes.length
  let (entries, rest) ← Lib.readMany decodeEntry 0 count rest
  .failIf (rest ≠ []) (.trailing rest.length count)
  return entries

/-! ## Hashes -/

/-- A lowercase hex digit. -/
def isLowerHex (c : Char) : Bool := ('0' ≤ c && c ≤ '9') || ('a' ≤ c && c ≤ 'f')

theorem isLowerHex_iff {c : Char} : isLowerHex c = true ↔
    48 ≤ c.toNat ∧ c.toNat ≤ 57 ∨ 97 ≤ c.toNat ∧ c.toNat ≤ 102 := by
  simp [isLowerHex, Char.le_def, UInt32.le_iff_toNat_le]

theorem isLowerHexByte_iff {x : UInt8} : isLowerHexByte x = true ↔
    48 ≤ x.toNat ∧ x.toNat ≤ 57 ∨ 97 ≤ x.toNat ∧ x.toNat ≤ 102 := by
  simp [isLowerHexByte]

section
variable {hash : Text} {b : Bytes}

theorem ascii_of_isChunkHash (h : isChunkHash hash = true) : ∀ c ∈ hash, c.toNat < 128 := by
  intro c hc
  have hdigit : isLowerHex c = true := List.all_eq_true.mp (Bool.and_eq_true_iff.mp h).2 c hc
  have := isLowerHex_iff.mp hdigit
  omega

/-- The bytes of a hash. -/
theorem utf8_hash (h : isChunkHash hash = true) :
    (utf8 hash).length = hashLen ∧ (utf8 hash).all isLowerHexByte = true := by
  obtain ⟨hlen, hall⟩ := Bool.and_eq_true_iff.mp h
  rw [Lib.utf8_ascii (ascii_of_isChunkHash h)]
  refine ⟨by simpa [hashLen] using hlen, ?_⟩
  simp only [List.all_map, List.all_eq_true, Function.comp_apply]
  intro c hc
  have hdigit : isLowerHex c = true := List.all_eq_true.mp hall c hc
  have hc := isLowerHex_iff.mp hdigit
  rw [isLowerHexByte_iff, UInt8.toNat_ofNat']
  omega

/-- 64 bytes of lowercase hex digits are those of a hash. -/
theorem exists_hash (hlen : b.length = hashLen) (hall : b.all isLowerHexByte = true) :
    ∃ hash, isChunkHash hash = true ∧ b = utf8 hash := by
  have hascii : ∀ x ∈ b, x.toNat < 128 := fun x hx => by
    have := isLowerHexByte_iff.mp (List.all_eq_true.mp hall x hx)
    omega
  refine ⟨Lib.ofAscii b, ?_, (Lib.utf8_ofAscii hascii).symm⟩
  have hdigits : (Lib.ofAscii b).all isLowerHex = true := by
    rw [Lib.ofAscii, List.all_map, List.all_eq_true]
    intro x hx
    rw [Function.comp_apply, isLowerHex_iff, Lib.toNat_ofAscii (hascii x hx)]
    exact isLowerHexByte_iff.mp (List.all_eq_true.mp hall x hx)
  exact Bool.and_eq_true_iff.mpr ⟨by simp [Lib.ofAscii, hlen, hashLen], hdigits⟩

end

/-! ## Entries -/

/-- An entry that a frame can hold: the hash is a digest, and the blob's length is a `usize`. -/
def EntryOk (e : Text × Bytes) : Prop := isChunkHash e.1 = true ∧ e.2.length < 2 ^ 64

section
variable {b x y z : Bytes} {i n lo hi : Nat}

theorem slice_eq (hlo : lo ≤ hi) (hhi : hi ≤ b.length) : slice b lo hi = .ok ((b.take hi).drop lo) := by
  rw [slice, if_pos ⟨hlo, hhi⟩]
  rfl

theorem fromLe_eq (h : b.length = n) : fromLe n b = .ok (ofLeBytes b) := by
  rw [fromLe, if_pos h]
  rfl

/-- The parts of an entry's header, and what follows it. -/
theorem decodeEntry_append (hx : x.length = hashLen) (hy : y.length = 8) :
    decodeEntry i (x ++ (y ++ z)) = do
      .failIf (x.all isLowerHexByte = false) (.badHash i)
      let hash ← .unwrap (ofUtf8 x)
      .failIf (z.length < ofLeBytes y) (.badBlob i (ofLeBytes y) z.length)
      return ((hash, z.take (ofLeBytes y)), z.drop (ofLeBytes y)) := by
  have hlong : ¬ (x ++ (y ++ z)).length < entryHeader := by
    simp only [List.length_append, entryHeader]
    omega
  have hhash : slice (x ++ (y ++ z)) 0 hashLen = .ok x := by
    rw [slice_eq (Nat.zero_le _) (by simp [hx]), List.take_left' hx]
    rfl
  have hlen : slice (x ++ (y ++ z)) hashLen entryHeader = .ok y := by
    rw [slice_eq (by simp [entryHeader]) (by omega), ← List.append_assoc,
      List.take_left' (by simp [hx, hy, entryHeader]), List.drop_left' hx]
  have hrest : slice (x ++ (y ++ z)) entryHeader (x ++ (y ++ z)).length = .ok z := by
    rw [slice_eq (by omega) (Nat.le_refl _), List.take_length, ← List.append_assoc,
      List.drop_left' (by simp [hx, hy, entryHeader])]
  simp only [decodeEntry, Fallible.failIf_eq_ok.mpr hlong, hhash, hlen, hrest, fromLe_eq hy,
    Fallible.ok_bind]
  congr! 4
  by_cases hblob : z.length < ofLeBytes y
  · simp [Fallible.failIf, hblob]
  · have htake : slice z 0 (ofLeBytes y) = .ok (z.take (ofLeBytes y)) :=
      slice_eq (Nat.zero_le _) (Nat.not_lt.mp hblob)
    have hdrop : slice z (ofLeBytes y) z.length = .ok (z.drop (ofLeBytes y)) := by
      rw [slice_eq (Nat.not_lt.mp hblob) (Nat.le_refl _), List.take_length]
    simp only [htake, hdrop, Fallible.ok_bind]

/-- A header's bytes are the parts of one. -/
theorem exists_header (h : entryHeader ≤ b.length) :
    ∃ x y z, b = x ++ (y ++ z) ∧ x.length = hashLen ∧ y.length = 8 := by
  refine ⟨b.take hashLen, (b.drop hashLen).take 8, (b.drop hashLen).drop 8, ?_, ?_, ?_⟩
  · rw [List.take_append_drop, List.take_append_drop]
  · rw [List.length_take]
    exact Nat.min_eq_left (le_trans (Nat.le_add_right _ _) h)
  · rw [List.length_take, List.length_drop]
    unfold entryHeader at h
    omega

/-- **An entry's reader is exact.** -/
theorem reads_decodeEntry (i : Nat) : Lib.Reads (decodeEntry i) encodeEntry EntryOk := by
  refine ⟨fun b => ?_, fun b e rest => ⟨fun h => ?_, ?_⟩⟩
  · by_cases hshort : b.length < entryHeader
    · simp [decodeEntry, Fallible.failIf, hshort]
    · obtain ⟨x, y, z, rfl, hx, hy⟩ := exists_header (Nat.not_lt.mp hshort)
      rw [decodeEntry_append hx hy]
      refine Fallible.bind_ne_panic Fallible.failIf_ne_panic fun _ hhex => ?_
      have hhex : x.all isLowerHexByte = true := by simpa using Fallible.failIf_eq_ok.mp hhex
      obtain ⟨hash, -, rfl⟩ := exists_hash hx hhex
      rw [Lib.ofUtf8_utf8]
      exact Fallible.bind_ne_panic nofun fun _ _ =>
        Fallible.bind_ne_panic Fallible.failIf_ne_panic fun _ _ => nofun
  · have hlong : ¬ b.length < entryHeader := by
      obtain ⟨_, hlong, -⟩ := Fallible.bind_eq_ok.mp h
      exact Fallible.failIf_eq_ok.mp hlong
    obtain ⟨x, y, z, rfl, hx, hy⟩ := exists_header (Nat.not_lt.mp hlong)
    rw [decodeEntry_append hx hy] at h
    obtain ⟨_, hhex, h⟩ := Fallible.bind_eq_ok.mp h
    obtain ⟨hash, hhash, h⟩ := Fallible.bind_eq_ok.mp h
    obtain ⟨_, hfits, h⟩ := Fallible.bind_eq_ok.mp h
    have hhex : x.all isLowerHexByte = true := by simpa using Fallible.failIf_eq_ok.mp hhex
    have hfits : ofLeBytes y ≤ z.length := Nat.not_lt.mp (Fallible.failIf_eq_ok.mp hfits)
    obtain ⟨rfl, rfl⟩ := Prod.mk.inj (Fallible.ok.inj h)
    obtain ⟨hash', hok, rfl⟩ := exists_hash hx hhex
    rw [Lib.ofUtf8_utf8] at hhash
    obtain rfl := Option.some.inj (Fallible.unwrap_eq_ok.mp hhash)
    have hblob : (z.take (ofLeBytes y)).length = ofLeBytes y := List.length_take_of_le hfits
    have hlt : ofLeBytes y < 2 ^ 64 := by
      have := Lib.ofLeBytes_lt y
      rw [hy] at this
      exact this
    refine ⟨⟨hok, by rwa [hblob]⟩, ?_⟩
    rw [encodeEntry, hblob, ← hy, Lib.leBytes_ofLeBytes, List.append_assoc, List.append_assoc,
      List.take_append_drop]
  · rintro ⟨⟨hhash, hblob⟩, rfl⟩
    obtain ⟨hlen, hhex⟩ := utf8_hash hhash
    have hle : ofLeBytes (leBytes 8 e.2.length) = e.2.length := Lib.ofLeBytes_leBytes hblob
    have hfits : ¬ (e.2 ++ rest).length < e.2.length := by simp
    rw [encodeEntry, List.append_assoc, List.append_assoc,
      decodeEntry_append hlen (Lib.length_leBytes 8 _), hle, Lib.ofUtf8_utf8,
      Fallible.failIf_eq_ok.mpr (by simp [hhex]), Fallible.failIf_eq_ok.mpr hfits,
      List.take_left, List.drop_left]
    rfl

end

/-! ## Frames -/

/-- A list that a frame can hold: the hashes are digests, and the lengths fit their fields. -/
def Framed (entries : List (Text × Bytes)) : Prop :=
  entries.length < 2 ^ 32 ∧ ∀ e ∈ entries, EntryOk e

section
variable {b x z : Bytes} {entries : List (Text × Bytes)}

/-- The count, and what follows it. -/
theorem decode_append (hx : x.length = 4) : decode (x ++ z) = do
    let (entries, rest) ← Lib.readMany decodeEntry 0 (ofLeBytes x) z
    .failIf (rest ≠ []) (.trailing rest.length (ofLeBytes x))
    return entries := by
  have hlong : ¬ (x ++ z).length < 4 := by simp [hx]
  have hcount : slice (x ++ z) 0 4 = .ok x := by
    rw [slice_eq (Nat.zero_le _) (by simp [hx]), List.take_left' hx]
    rfl
  have hrest : slice (x ++ z) 4 (x ++ z).length = .ok z := by
    rw [slice_eq (by omega) (Nat.le_refl _), List.take_length, List.drop_left' hx]
  simp only [decode, Fallible.failIf_eq_ok.mpr hlong, hcount, hrest, fromLe_eq hx, Fallible.ok_bind]

/-- A frame is accepted as a list exactly when it is the list's encoding. -/
theorem decode_eq_ok_iff : decode b = .ok entries ↔ Framed entries ∧ b = encode entries := by
  have hreads := fun n => Lib.Reads.many reads_decodeEntry 0 n
  constructor
  · intro h
    have hlong : ¬ b.length < 4 := by
      obtain ⟨_, hlong, -⟩ := Fallible.bind_eq_ok.mp h
      exact Fallible.failIf_eq_ok.mp hlong
    obtain ⟨x, z, rfl, hx⟩ : ∃ x z, b = x ++ z ∧ x.length = 4 :=
      ⟨b.take 4, b.drop 4, (List.take_append_drop 4 b).symm, List.length_take_of_le (by omega)⟩
    rw [decode_append hx] at h
    obtain ⟨⟨entries', rest⟩, hread, h⟩ := Fallible.bind_eq_ok.mp h
    obtain ⟨_, hend, h⟩ := Fallible.bind_eq_ok.mp h
    obtain rfl := Fallible.ok.inj h
    obtain rfl : rest = [] := not_not.mp (Fallible.failIf_eq_ok.mp hend)
    obtain ⟨⟨hlen, hall⟩, rfl⟩ := ((hreads _).reads _ _ _).mp hread
    have hlt := Lib.ofLeBytes_lt x
    rw [hx] at hlt
    refine ⟨⟨hlen ▸ hlt, hall⟩, ?_⟩
    rw [encode, hlen, ← hx, Lib.leBytes_ofLeBytes, List.append_nil]
  · rintro ⟨⟨hlen, hall⟩, rfl⟩
    have hcount : ofLeBytes (leBytes 4 entries.length) = entries.length :=
      Lib.ofLeBytes_leBytes hlen
    have hread : Lib.readMany decodeEntry 0 entries.length (entries.flatMap encodeEntry) =
        .ok (entries, []) :=
      ((hreads _).reads _ _ _).mpr ⟨⟨rfl, hall⟩, (List.append_nil _).symm⟩
    rw [encode, decode_append (Lib.length_leBytes 4 _), hcount, hread]
    rfl

/-- No byte string makes `decode` panic. -/
theorem decode_ne_panic (b : Bytes) : decode b ≠ .panic := by
  by_cases hshort : b.length < 4
  · simp [decode, Fallible.failIf, hshort]
  · obtain ⟨x, z, rfl, hx⟩ : ∃ x z, b = x ++ z ∧ x.length = 4 :=
      ⟨b.take 4, b.drop 4, (List.take_append_drop 4 b).symm, List.length_take_of_le (by omega)⟩
    rw [decode_append hx]
    exact Fallible.bind_ne_panic ((Lib.Reads.many reads_decodeEntry 0 _).total z) fun _ _ =>
      Fallible.bind_ne_panic Fallible.failIf_ne_panic fun _ _ => nofun

end

/-- **The chunk frame is a bijection** between the lists that a frame can hold and the byte strings that
are accepted, and every other byte string is an error. -/
theorem frame_bijection :
    (∀ (b : Bytes) (entries : List (Text × Bytes)),
      decode b = .ok entries ↔ Framed entries ∧ b = encode entries) ∧
    (∀ b : Bytes, (∃ entries, Framed entries ∧ b = encode entries) ∨ ∃ e, decode b = .error e) ∧
    (∀ entries : { entries // Framed entries }, decode (encode entries) = .ok entries.1) ∧
    Function.Injective fun entries : { entries // Framed entries } => encode entries := by
  have hround : ∀ entries : { entries // Framed entries }, decode (encode entries) = .ok entries.1 :=
    fun entries => decode_eq_ok_iff.mpr ⟨entries.2, rfl⟩
  refine ⟨fun _ _ => decode_eq_ok_iff, fun b => ?_, hround, fun e₁ e₂ heq => ?_⟩
  · cases h : decode b with
    | ok entries => exact .inl ⟨entries, decode_eq_ok_iff.mp h⟩
    | error e => exact .inr ⟨e, rfl⟩
    | panic => exact absurd h (decode_ne_panic b)
  · have h := hround e₁
    rw [show encode e₁.1 = encode e₂.1 from heq, hround e₂] at h
    exact Subtype.ext (Fallible.ok.inj h).symm

example : decode [0, 0, 0, 0] = .ok [] := by decide

end Pear.Frame
