import Pear.Hex
import Pear.Keyring

/-!
# Wrap payloads

How a key ring is stored and wrapped (`e2e.rs`): a JSON object of each generation's key in hex, or the
32 bytes of a single key from before there were rings. `serde_json` is a parameter (`MapJson`), of
which it is assumed that it prints strings without escapes as they are and reads back what it prints.
-/

namespace Pear

open Lib (Fallible)

/-- A workspace key: 32 bytes. -/
abbrev RingKey := { b : Bytes // b.length = 32 }

/-- A map of generation numbers to strings (`BTreeMap<u32, String>`). -/
abbrev HexedKeys := Std.ExtTreeMap Nat Text compare

/-- `serde_json` on such maps: `to_vec` and `from_slice`, which reads numbers of 32 bits. -/
structure MapJson where
  toVec : HexedKeys → Bytes
  fromSlice : Bytes → Option HexedKeys
  u32 : ∀ {b m}, fromSlice b = some m → ∀ g ∈ m, g < 2 ^ 32

/-- Why a payload is no key ring. -/
inductive KeyringError where
  | notMap
  | generationZero
  | notHex (gen : Nat)
  | wrongLength (gen len : Nat)
  | empty
  | blobNotHex
  | doesNotDecrypt
deriving DecidableEq

/-- `hex_decode`, with what its error is reported as. -/
def hexBytes (e : KeyringError) (s : Text) : Fallible KeyringError Bytes :=
  match hexDecode s with
  | none => .panic
  | some none => .error e
  | some (some b) => .ok b

/-- The key of a generation, of 32 bytes (`raw.as_slice().try_into()`). -/
def ringKey (g : Nat) (raw : Bytes) : Fallible KeyringError RingKey :=
  if h : raw.length = 32 then .ok ⟨raw, h⟩ else .error (.wrongLength g raw.length)

/-- `keyring_json` -/
def keyringJson (j : MapJson) (r : Keyring RingKey) : Bytes :=
  j.toVec (r.keys.map fun _ key => hexEncode key.1)

/-- The loop of `keyring_from_json`, over the generations in ascending order. -/
def readKeys (keys : Std.ExtTreeMap Nat RingKey compare) :
    List (Nat × Text) → Fallible KeyringError (Std.ExtTreeMap Nat RingKey compare)
  | [] => .ok keys
  | (g, hex) :: es => do
    Fallible.failIf (g = 0) .generationZero
    let raw ← hexBytes (.notHex g) hex
    let key ← ringKey g raw
    readKeys (keys.insert g key) es

/-- `keyring_from_json` -/
def keyringFromJson (j : MapJson) (bytes : Bytes) : Fallible KeyringError (Keyring RingKey) :=
  match j.fromSlice bytes with
  | none => .error .notMap
  | some hexed =>
    match readKeys ∅ hexed.toList with
    | .panic => .panic
    | .error e => .error e
    | .ok keys => if h : keys.isEmpty then .error .empty else
      .ok ⟨keys, Std.ExtTreeMap.isEmpty_eq_false_iff.mp (Bool.eq_false_iff.mpr h)⟩

/-- `keyring_from_wrap_payload` -/
def keyringFromWrapPayload (j : MapJson) (bytes : Bytes) :
    Fallible KeyringError (Keyring RingKey) :=
  if h : bytes.length = 32 then .ok (Keyring.fromLegacy ⟨bytes, h⟩) else keyringFromJson j bytes

/-- `unwrap_keyring`, with what the sealed box holds for the recipient (`unwrap_key`). -/
def MapJson.unwrapKeyring (j : MapJson) (unwrapKey : Bytes → Option Bytes) (blobHex : Text) :
    Fallible KeyringError (Keyring RingKey) := do
  let blob ← hexBytes .blobNotHex blobHex
  match unwrapKey blob with
  | none => .error .doesNotDecrypt
  | some payload => keyringFromWrapPayload j payload

/-! ## Printing -/

/-- A character that a JSON string holds as it is. -/
def Plain (c : Char) : Prop := c ≠ '"' ∧ c ≠ '\\' ∧ 32 ≤ c.toNat

/-- What comes after the opening brace or an entry. -/
def objectRest : List (Nat × Text) → Text
  | [] => ['}']
  | (g, t) :: es => '"' :: Nat.toDigits 10 g ++ '"' :: ':' :: '"' :: t ++
      '"' :: (if es = [] then [] else [',']) ++ objectRest es

/-- The compact JSON object of a map whose strings need no escapes. -/
def objectText (m : HexedKeys) : Text := '{' :: objectRest m.toList

/-- What is assumed of `serde_json`: strings without escapes are printed as they are, and what is
printed of generation numbers is read back. -/
structure MapJson.Faithful (j : MapJson) : Prop where
  prints : ∀ m : HexedKeys, (∀ e ∈ m.toList, ∀ c ∈ e.2, Plain c) →
    j.toVec m = Lib.utf8 (objectText m)
  reads : ∀ m : HexedKeys, (∀ e ∈ m.toList, e.1 < 2 ^ 32 ∧ ∀ c ∈ e.2, Plain c) →
    j.fromSlice (Lib.utf8 (objectText m)) = some m

/-! ## Reading -/

section
variable {e : KeyringError} {s : Text} {g : Nat} {key : RingKey}
  {es : List (Nat × Text)} {keys keys' : Std.ExtTreeMap Nat RingKey compare}

theorem hexBytes_eq_panic_iff : hexBytes e s = .panic ↔ CutsChar s := by
  rw [← hexDecode_eq_none_iff]
  unfold hexBytes
  split <;> simp [*]

theorem hexBytes_eq_ok_iff {b : Bytes} : hexBytes e s = .ok b ↔ hexDecode s = some (some b) := by
  unfold hexBytes
  split <;> simp [*]

theorem ringKey_eq_ok_iff {raw : Bytes} : ringKey g raw = .ok key ↔ raw = key.1 := by
  unfold ringKey
  split
  · simp [Subtype.ext_iff]
  · rename_i hlen
    exact ⟨nofun, fun h => absurd (h ▸ key.2) hlen⟩

/-- An entry that is read. -/
theorem readKeys_cons (hg : g ≠ 0) (hs : hexDecode s = some (some key.1)) :
    readKeys keys ((g, s) :: es) = readKeys (keys.insert g key) es := by
  rw [readKeys, Lib.Fallible.failIf_eq_ok.mpr hg, hexBytes_eq_ok_iff.mpr hs]
  simp only [Lib.Fallible.ok_bind]
  rw [ringKey_eq_ok_iff.mpr rfl, Lib.Fallible.ok_bind]

/-- What is read of an entry: a generation from 1 on, and 32 bytes of hex. -/
theorem readKeys_cons_eq_ok_iff : readKeys keys ((g, s) :: es) = .ok keys' ↔
    g ≠ 0 ∧ ∃ key : RingKey, hexDecode s = some (some key.1) ∧
      readKeys (keys.insert g key) es = .ok keys' := by
  constructor
  · intro h
    obtain ⟨⟨⟩, hg, h⟩ := Lib.Fallible.bind_eq_ok.mp h
    obtain ⟨raw, hraw, h⟩ := Lib.Fallible.bind_eq_ok.mp h
    obtain ⟨key, hkey, h⟩ := Lib.Fallible.bind_eq_ok.mp h
    exact ⟨Lib.Fallible.failIf_eq_ok.mp hg, key,
      ringKey_eq_ok_iff.mp hkey ▸ hexBytes_eq_ok_iff.mp hraw, h⟩
  · rintro ⟨hg, key, hs, h⟩
    rwa [readKeys_cons hg hs]

/-- The generations that are read: those of the entries, from 1 on. -/
theorem mem_of_readKeys (h : readKeys keys es = .ok keys') (hg : g ∈ keys') :
    g ∈ keys ∨ g ≠ 0 ∧ g ∈ es.map (·.1) := by
  induction es generalizing keys with
  | nil =>
    cases h
    exact .inl hg
  | cons e es ih =>
    obtain ⟨hpos, key, -, h⟩ := readKeys_cons_eq_ok_iff.mp h
    rcases ih h with hmem | ⟨hne, hmem⟩
    · rw [Std.ExtTreeMap.mem_insert, Std.LawfulEqCmp.compare_eq_iff_eq] at hmem
      rcases hmem with rfl | hmem
      · exact .inr ⟨hpos, by simp⟩
      · exact .inl hmem
    · exact .inr ⟨hne, List.mem_cons_of_mem _ hmem⟩

/-- The hex of some keys is read back. -/
theorem readKeys_hexEncode : ∀ {ks : List (Nat × RingKey)}
    {keys : Std.ExtTreeMap Nat RingKey compare}, (∀ e ∈ ks, e.1 ≠ 0) →
    readKeys keys (ks.map fun e => (e.1, hexEncode e.2.1)) =
      .ok (ks.foldl (fun m e => m.insert e.1 e.2) keys)
  | [], _, _ => rfl
  | (g, key) :: ks, keys, h => by
    obtain ⟨hg, h⟩ := List.forall_mem_cons.mp h
    rw [List.map_cons, readKeys_cons hg (hexDecode_hexEncode key.1), readKeys_hexEncode h]
    rfl

/-- A string that is read as a key: 32 pairs. -/
def KeyText (s : Text) : Prop := ∃ ps : List (Char × Char), s = pairText ps ∧
  (∀ p ∈ ps, HexPair p) ∧ ps.length = 32

theorem keyText_iff : KeyText s ↔ ∃ key : RingKey, hexDecode s = some (some key.1) := by
  constructor
  · rintro ⟨ps, hs, hps, hlen⟩
    obtain ⟨b, hb⟩ := exists_bytes hps
    have hb32 : b.length = 32 := by
      have := congrArg List.length hb
      rwa [List.length_map, List.length_map, hlen, eq_comm] at this
    exact ⟨⟨b, hb32⟩, hexDecode_eq_ok_iff.mpr ⟨ps, hs, hb⟩⟩
  · rintro ⟨key, h⟩
    obtain ⟨ps, hs, hps⟩ := hexDecode_eq_ok_iff.mp h
    refine ⟨ps, hs, hexPair_of_map hps, ?_⟩
    have := congrArg List.length hps
    rwa [List.length_map, List.length_map, key.2] at this

/-- Entries that are keys of generations from 1 on, up to one whose key cannot be decoded without a
panic. -/
def EntriesCut (es : List (Nat × Text)) : Prop := ∃ (pre : List (Nat × Text)) (g : Nat) (s : Text)
  (post : List (Nat × Text)), es = pre ++ (g, s) :: post ∧
    (∀ e ∈ pre, e.1 ≠ 0 ∧ KeyText e.2) ∧ g ≠ 0 ∧ CutsChar s

theorem entriesCut_cons :
    EntriesCut ((g, s) :: es) ↔ g ≠ 0 ∧ (CutsChar s ∨ KeyText s ∧ EntriesCut es) := by
  constructor
  · rintro ⟨pre, g', s', post, h, hpre, hpos, hcut⟩
    cases pre with
    | nil =>
      cases h
      exact ⟨hpos, .inl hcut⟩
    | cons e pre =>
      cases h
      obtain ⟨⟨hg, hs⟩, hpre⟩ := List.forall_mem_cons.mp hpre
      exact ⟨hg, .inr ⟨hs, pre, g', s', post, rfl, hpre, hpos, hcut⟩⟩
  · rintro ⟨hg, hcut | ⟨hs, pre, g', s', post, rfl, hpre, hpos, hcut⟩⟩
    · exact ⟨[], g, s, es, rfl, by simp, hg, hcut⟩
    · exact ⟨(g, s) :: pre, g', s', post, rfl, List.forall_mem_cons.mpr ⟨⟨hg, hs⟩, hpre⟩, hpos, hcut⟩

/-- One entry panics, or a later one does when this one is read. -/
theorem readKeys_cons_eq_panic_iff : readKeys keys ((g, s) :: es) = .panic ↔
    g ≠ 0 ∧ (CutsChar s ∨ ∃ key : RingKey, hexDecode s = some (some key.1) ∧
      readKeys (keys.insert g key) es = .panic) := by
  by_cases hg : g = 0
  · rw [readKeys, Fallible.failIf, if_pos hg]
    exact ⟨nofun, fun h => absurd hg h.1⟩
  · rw [readKeys, Fallible.failIf, if_neg hg, Fallible.ok_bind, ← hexDecode_eq_none_iff]
    unfold hexBytes
    cases hexDecode s with
    | none => exact ⟨fun _ => ⟨hg, .inl rfl⟩, fun _ => rfl⟩
    | some b? =>
      cases b? with
      | none =>
        refine ⟨nofun, ?_⟩
        rintro ⟨-, h | ⟨key, h, -⟩⟩
        · cases h
        · cases h
      | some raw =>
        rw [Fallible.ok_bind, ringKey]
        split
        · rename_i hlen
          rw [Fallible.ok_bind]
          constructor
          · exact fun h => ⟨hg, .inr ⟨⟨raw, hlen⟩, rfl, h⟩⟩
          · rintro ⟨-, h | ⟨key, h, hrest⟩⟩
            · cases h
            · cases h
              exact hrest
        · rename_i hlen
          refine ⟨nofun, ?_⟩
          rintro ⟨-, h | ⟨key, h, -⟩⟩
          · cases h
          · cases h
            exact absurd key.2 hlen

/-- **Where the loop panics.** -/
theorem readKeys_eq_panic_iff : readKeys keys es = .panic ↔ EntriesCut es := by
  induction es generalizing keys with
  | nil =>
    constructor
    · intro h
      cases h
    · rintro ⟨pre, g, s, post, h, -⟩
      cases pre <;> cases h
  | cons e es ih =>
    obtain ⟨g, s⟩ := e
    rw [readKeys_cons_eq_panic_iff, entriesCut_cons, keyText_iff]
    simp only [ih, exists_and_right]

end

/-! ## Payloads -/

section
variable {j : MapJson} {b : Bytes} {r : Keyring RingKey}

/-- A payload whose map has a key that cannot be decoded without a panic. -/
def PayloadCuts (j : MapJson) (b : Bytes) : Prop := ∃ hexed, j.fromSlice b = some hexed ∧
  EntriesCut hexed.toList

/-- **`keyring_from_json` panics** where a key cannot be decoded without a panic. -/
theorem keyringFromJson_eq_panic_iff : keyringFromJson j b = .panic ↔ PayloadCuts j b := by
  unfold keyringFromJson PayloadCuts
  cases j.fromSlice b with
  | none => simp
  | some hexed =>
    have hpanic : readKeys ∅ hexed.toList = .panic ↔ EntriesCut hexed.toList :=
      readKeys_eq_panic_iff
    simp only [Option.some.injEq, exists_eq_left', ← hpanic]
    cases readKeys ∅ hexed.toList with
    | panic => simp
    | error e => simp
    | ok keys =>
      refine ⟨fun h => ?_, nofun⟩
      dsimp only at h
      split at h <;> cases h

/-- What `keyring_from_json` accepts. -/
theorem keyringFromJson_eq_ok_iff : keyringFromJson j b = .ok r ↔
    ∃ hexed, j.fromSlice b = some hexed ∧ readKeys ∅ hexed.toList = .ok r.keys := by
  unfold keyringFromJson
  cases j.fromSlice b with
  | none => simp
  | some hexed =>
    simp only [Option.some.injEq, exists_eq_left']
    cases readKeys ∅ hexed.toList with
    | panic => simp
    | error e => simp
    | ok keys =>
      simp only [Fallible.ok.injEq]
      constructor
      · intro h
        split at h
        · cases h
        · cases h
          rfl
      · rintro rfl
        have hne : ¬ r.keys.isEmpty = true := by
          rw [Bool.not_eq_true, Std.ExtTreeMap.isEmpty_eq_false_iff]
          exact r.nonempty
        rw [dif_neg hne]

theorem keyringFromWrapPayload_of_ne (h : b.length ≠ 32) :
    keyringFromWrapPayload j b = keyringFromJson j b := dif_neg h

theorem keyringFromWrapPayload_eq_panic_iff :
    keyringFromWrapPayload j b = .panic ↔ b.length ≠ 32 ∧ PayloadCuts j b := by
  by_cases h : b.length = 32
  · rw [keyringFromWrapPayload, dif_pos h]
    exact ⟨nofun, fun hcut => absurd h hcut.1⟩
  · rw [keyringFromWrapPayload_of_ne h, keyringFromJson_eq_panic_iff]
    exact ⟨fun hcut => ⟨h, hcut⟩, And.right⟩

/-- A blob off the wire that the device cannot take without a panic: its hex, or a key of the payload
that the box of these bytes holds. -/
def BlobCuts (j : MapJson) (unwrapKey : Bytes → Option Bytes) (s : Text) : Prop :=
  CutsChar s ∨ ∃ (ps : List (Char × Char)) (blob payload : Bytes), s = pairText ps ∧
    ps.map (fun p => hexByte p.1 p.2) = blob.map some ∧ unwrapKey blob = some payload ∧
    payload.length ≠ 32 ∧ PayloadCuts j payload

/-- **`unwrap_keyring` panics** on such a blob. -/
theorem MapJson.unwrapKeyring_eq_panic_iff {unwrapKey : Bytes → Option Bytes} {s : Text} :
    j.unwrapKeyring unwrapKey s = .panic ↔ BlobCuts j unwrapKey s := by
  unfold MapJson.unwrapKeyring BlobCuts
  constructor
  · intro h
    cases hblob : hexBytes .blobNotHex s with
    | panic => exact .inl (hexBytes_eq_panic_iff.mp hblob)
    | error e =>
      rw [hblob] at h
      cases h
    | ok blob =>
      rw [hblob, Fallible.ok_bind] at h
      cases hbox : unwrapKey blob with
      | none =>
        rw [hbox] at h
        cases h
      | some payload =>
        rw [hbox] at h
        obtain ⟨ps, hs, hps⟩ := hexDecode_eq_ok_iff.mp (hexBytes_eq_ok_iff.mp hblob)
        obtain ⟨hlen, hcut⟩ := keyringFromWrapPayload_eq_panic_iff.mp h
        exact .inr ⟨ps, blob, payload, hs, hps, hbox, hlen, hcut⟩
  · rintro (hcut | ⟨ps, blob, payload, hs, hps, hbox, hlen, hcut⟩)
    · rw [hexBytes_eq_panic_iff.mpr hcut]
      rfl
    · rw [hexBytes_eq_ok_iff.mpr (hexDecode_eq_ok_iff.mpr ⟨ps, hs, hps⟩), Fallible.ok_bind, hbox]
      exact keyringFromWrapPayload_eq_panic_iff.mpr ⟨hlen, hcut⟩

end

/-! ## A reader of compact objects -/

/-- The entries that the strings between the quotes of an object give. -/
def objectEntries : List Text → List (Nat × Text)
  | _ :: g :: _ :: t :: rest => (Nat.ofDigitChars 10 g 0, t) :: objectEntries rest
  | _ => []

/-- A reader of compact objects, which checks that it would print what it reads. -/
def compactJson : MapJson where
  toVec m := Lib.utf8 (objectText m)
  fromSlice b := (Lib.ofUtf8 b).bind fun s =>
    let m := Std.ExtTreeMap.ofList (objectEntries (s.splitOn '"')) compare
    if objectText m = s ∧ ∀ e ∈ m.toList, e.1 < 2 ^ 32 then some m else none
  u32 {b m} h g hg := by
    obtain ⟨s, -, h⟩ := Option.bind_eq_some_iff.mp h
    dsimp only at h
    split at h
    · rename_i hall
      cases h
      obtain ⟨t, ht⟩ := Option.isSome_iff_exists.mp (Std.ExtTreeMap.mem_iff_isSome_getElem?.mp hg)
      exact hall.2 (g, t) (Std.ExtTreeMap.mem_toList_iff_getElem?_eq_some.mpr ht)
    · cases h

/-- The entries of an object are found between its quotes. -/
theorem objectEntries_splitOn : ∀ {es : List (Nat × Text)} {pre : Text}, '"' ∉ pre →
    (∀ e ∈ es, '"' ∉ e.2) → objectEntries ((pre ++ objectRest es).splitOn '"') = es
  | [], pre, hpre, _ => by
    have hno : '"' ∉ pre ++ objectRest [] := by simp [objectRest, hpre]
    rw [List.splitOn_eq_singleton hno]
    rfl
  | (g, t) :: es, pre, hpre, hes => by
    obtain ⟨ht, hes⟩ := List.forall_mem_cons.mp hes
    have hdigits : '"' ∉ Nat.toDigits 10 g := fun h => by
      have := Nat.isDigit_of_mem_toDigits (by decide) (by decide) h
      exact absurd this (by decide)
    have hsep : '"' ∉ (if es = [] then [] else [',']) := by split <;> simp
    have ih := objectEntries_splitOn hsep hes
    have hcolon : ∀ s : Text, (':' :: '"' :: s).splitOn '"' = [':'] :: s.splitOn '"' :=
      List.splitOn_append_cons_self_of_not_mem (show '"' ∉ [':'] by decide)
    simp only [objectRest, List.append_assoc, List.cons_append]
    rw [List.splitOn_append_cons_self_of_not_mem hpre,
      List.splitOn_append_cons_self_of_not_mem hdigits, hcolon,
      List.splitOn_append_cons_self_of_not_mem ht, objectEntries, ih,
      Nat.ofDigitChars_ten_toDigits]

/-- **The reader is faithful.** -/
theorem compactJson_faithful : compactJson.Faithful where
  prints _ _ := rfl
  reads m hm := by
    have hplain : ∀ e ∈ m.toList, '"' ∉ e.2 := fun e he hmem => ((hm e he).2 _ hmem).1 rfl
    have hentries : objectEntries ((objectText m).splitOn '"') = m.toList :=
      objectEntries_splitOn (show '"' ∉ ['{'] by decide) hplain
    show (Lib.ofUtf8 (Lib.utf8 (objectText m))).bind _ = some m
    rw [Lib.ofUtf8_utf8, Option.bind_some]
    dsimp only
    rw [hentries, Lib.ofList_toList, if_pos ⟨rfl, fun e he => (hm e he).1⟩]

/-! ## Hostile strings -/

/-- **Hex is decoded exactly and without a panic** unless a sign stands for a digit or a slice ends
inside a character. A member record, a payload and a blob are dealt with unless such a slice is among
what is decoded of them. -/
theorem hex_total_iff (edVerify : Bytes → Bytes → Bytes → Bool) (pins : KnownKeys) (j : MapJson)
    (unwrapKey : Bytes → Option Bytes) :
    (∀ s : Text, HexExact s ↔ ¬ (SignedHex s ∨ CutsChar s)) ∧
    (∀ m : MemberInfo, (∃ c, classifyMember edVerify pins m = some c) ↔ ¬ m.Cuts) ∧
    (∀ b : Bytes, keyringFromJson j b ≠ .panic ↔ ¬ PayloadCuts j b) ∧
    (∀ s : Text, j.unwrapKeyring unwrapKey s ≠ .panic ↔ ¬ BlobCuts j unwrapKey s) := by
  refine ⟨fun s => hexDecode_exact_iff, fun m => ?_, fun b => ?_, fun s => ?_⟩
  · exact Option.ne_none_iff_exists'.symm.trans classifyMember_eq_none_iff.not
  · exact keyringFromJson_eq_panic_iff.not
  · exact MapJson.unwrapKeyring_eq_panic_iff.not

/-- A sign is read as a digit, and a character of two bytes between two of one makes the decoder, the
pass over a team and the unwrapping panic. -/
theorem hex_sign_and_panic : ¬ HexExact "+1".toList ∧ ¬ HexExact "aéa".toList ∧
    classifyMember (fun _ _ _ => true) ∅ ⟨"mo".toList, some "aéa".toList, some [], some []⟩ = none ∧
    compactJson.unwrapKeyring some "aéa".toList = .panic := by
  have hsign : hexDecode "+1".toList = some (some [1]) := by decide +kernel
  have hcut : hexDecode "aéa".toList = none := by decide +kernel
  refine ⟨fun h => ?_, fun h => h.noPanic hcut, by decide +kernel,
    MapJson.unwrapKeyring_eq_panic_iff.mpr (.inl (hexDecode_eq_none_iff.mp hcut))⟩
  obtain ⟨ps, hs, hfree, -⟩ := hexOf_iff.mp ((h.ok [1]).mp hsign)
  cases ps with
  | nil => cases hs
  | cons p ps =>
    injection hs with hp
    exact hfree p (by simp) hp.symm

/-! ## Round trips -/

/-- A ring with generations from 1 on, in 32 bits. -/
structure Keyring.Storable (r : Keyring RingKey) : Prop where
  pos : ∀ g ∈ r.keys, 1 ≤ g
  u32 : ∀ g ∈ r.keys, g < 2 ^ 32

section
variable {j : MapJson} {r : Keyring RingKey} {b : Bytes}

theorem plain_hexEncode (b : Bytes) : ∀ c ∈ hexEncode b, Plain c := by
  have hall : ∀ n < 16, Nat.digitChar n ≠ '"' ∧ Nat.digitChar n ≠ '\\' ∧
      32 ≤ (Nat.digitChar n).toNat := by decide
  intro c hc
  obtain ⟨x, -, hc⟩ := List.mem_flatMap.mp hc
  have hx := x.toNat_lt
  rcases List.mem_cons.mp hc with rfl | hc
  · exact hall _ (by omega)
  · rw [List.mem_singleton.mp hc]
    exact hall _ (by omega)

/-- The strings of a ring's map. -/
theorem mem_hexed {e : Nat × Text}
    (he : e ∈ (r.keys.map fun _ key => hexEncode key.1).toList) :
    e.1 ∈ r.keys ∧ ∃ key : RingKey, e.2 = hexEncode key.1 := by
  rw [Std.ExtTreeMap.toList_map] at he
  obtain ⟨e', he', rfl⟩ := List.mem_map.mp he
  exact ⟨Keyring.mem_keys_iff.mpr
    ⟨e'.2, Std.ExtTreeMap.mem_toList_iff_getElem?_eq_some.mp he'⟩, e'.2, rfl⟩

theorem plain_hexed {e : Nat × Text}
    (he : e ∈ (r.keys.map fun _ key => hexEncode key.1).toList) : ∀ c ∈ e.2, Plain c := by
  obtain ⟨-, key, hkey⟩ := mem_hexed he
  rw [hkey]
  exact plain_hexEncode key.1

/-- **What is stored of a ring is read back.** -/
theorem keyringFromJson_keyringJson (hj : j.Faithful) (hr : r.Storable) :
    keyringFromJson j (keyringJson j r) = .ok r := by
  rw [keyringFromJson_eq_ok_iff, keyringJson, hj.prints _ fun e he => plain_hexed he]
  refine ⟨_, hj.reads _ fun e he => ⟨hr.u32 _ (mem_hexed he).1, plain_hexed he⟩, ?_⟩
  have hpos : ∀ e ∈ r.keys.toList, e.1 ≠ 0 := fun e he => Nat.ne_of_gt (hr.pos _
    (Keyring.mem_keys_iff.mpr ⟨e.2, Std.ExtTreeMap.mem_toList_iff_getElem?_eq_some.mp he⟩))
  rw [Std.ExtTreeMap.toList_map, readKeys_hexEncode hpos, ← Std.ExtTreeMap.ofList_eq_foldl,
    Lib.ofList_toList]

/-- An object is longer than any of its strings. -/
theorem length_objectRest {e : Nat × Text} :
    ∀ {es : List (Nat × Text)}, e ∈ es → e.2.length ≤ (objectRest es).length
  | (g, t) :: es, h => by
    simp only [objectRest, List.length_append, List.length_cons]
    rcases List.mem_cons.mp h with rfl | h
    · dsimp only
      omega
    · have := length_objectRest h
      omega

/-- **What is stored of a ring is longer than a key.** -/
theorem length_keyringJson (hj : j.Faithful) (r : Keyring RingKey) :
    64 < (keyringJson j r).length := by
  have hmem : (r.newestGen, hexEncode r.newest.2.1) ∈
      (r.keys.map fun _ key => hexEncode key.1).toList := by
    rw [Std.ExtTreeMap.toList_map, List.mem_map]
    exact ⟨(r.newestGen, r.newest.2),
      Std.ExtTreeMap.mem_toList_iff_getElem?_eq_some.mpr r.newest_key, rfl⟩
  have hrest := length_objectRest hmem
  have hkey : (hexEncode r.newest.2.1).length = 64 := by
    rw [length_hexEncode, r.newest.2.2]
  rw [keyringJson, hj.prints _ fun e he => plain_hexed he]
  have hutf8 := Lib.length_le_utf8 (objectText (r.keys.map fun _ key => hexEncode key.1))
  rw [objectText, List.length_cons] at hutf8
  dsimp only at hrest
  unfold objectText
  omega

/-- What is read is storable. -/
theorem storable_of_keyringFromJson (h : keyringFromJson j b = .ok r) : r.Storable := by
  obtain ⟨hexed, hslice, hread⟩ := keyringFromJson_eq_ok_iff.mp h
  have hmem : ∀ g ∈ r.keys, g ≠ 0 ∧ g ∈ hexed := by
    intro g hg
    rcases mem_of_readKeys hread hg with hmem | ⟨hne, hmem⟩
    · simp at hmem
    · rw [Std.ExtTreeMap.map_fst_toList_eq_keys, Std.ExtTreeMap.mem_keys] at hmem
      exact ⟨hne, hmem⟩
  exact ⟨fun g hg => Nat.pos_of_ne_zero (hmem g hg).1, fun g hg => j.u32 hslice g (hmem g hg).2⟩

theorem storable_fromLegacy (key : RingKey) : (Keyring.fromLegacy key).Storable := by
  constructor
  · intro g hg
    rw [Keyring.mem_fromLegacy.mp hg]
  · intro g hg
    rw [Keyring.mem_fromLegacy.mp hg]
    decide

theorem storable_of_keyringFromWrapPayload (h : keyringFromWrapPayload j b = .ok r) :
    r.Storable := by
  unfold keyringFromWrapPayload at h
  split at h
  · cases h
    exact storable_fromLegacy _
  · exact storable_of_keyringFromJson h

end

/-- **Wrap payloads round-trip.** A ring is read back from its payload, no payload of a ring is as long
as a legacy key, and a legacy key is read as the ring that has it at generation 1. -/
theorem wrap_payload_round_trip (j : MapJson) (hj : j.Faithful) :
    (∀ r : Keyring RingKey, r.Storable →
      keyringFromWrapPayload j (keyringJson j r) = .ok r ∧
      keyringFromJson j (keyringJson j r) = .ok r ∧ (keyringJson j r).length ≠ 32) ∧
    (∀ k : Bytes, ∀ hk : k.length = 32,
      keyringFromWrapPayload j k = .ok (Keyring.fromLegacy ⟨k, hk⟩)) := by
  refine ⟨fun r hr => ?_, fun k hk => dif_pos hk⟩
  have hback := keyringFromJson_keyringJson hj hr
  have hlen : (keyringJson j r).length ≠ 32 := by
    have := length_keyringJson hj r
    omega
  exact ⟨(keyringFromWrapPayload_of_ne hlen).trans hback, hback, hlen⟩

/-- A ring of two generations goes through its payload. -/
theorem wrap_payload_rotated :
    let r := (Keyring.fromLegacy (⟨List.replicate 32 7, rfl⟩ : RingKey)).rotate
      ⟨List.replicate 32 9, rfl⟩
    r.Storable ∧ keyringFromWrapPayload compactJson (keyringJson compactJson r) = .ok r := by
  intro r
  have hr : r.Storable := by
    have hkeys : r.keys.keys = [1, 2] := by decide +kernel
    have hmem : ∀ g ∈ r.keys, g = 1 ∨ g = 2 := fun g hg => by
      rw [← Std.ExtTreeMap.mem_keys, hkeys] at hg
      simpa using hg
    constructor
    · intro g hg
      have := hmem g hg
      omega
    · intro g hg
      have := hmem g hg
      omega
  exact ⟨hr, ((wrap_payload_round_trip compactJson compactJson_faithful).1 r hr).1⟩

/-! ## Rings in use -/

/-- The rings that a device gets: from a legacy key, from a stored ring or from a wrap payload, and
then by unions of such rings and rotations of rings that may be rotated. -/
inductive Obtained (j : MapJson) (mayRotate : Keyring RingKey → Prop) : Keyring RingKey → Prop where
  | legacy (key : RingKey) : Obtained j mayRotate (Keyring.fromLegacy key)
  | json {b : Bytes} {r : Keyring RingKey} : keyringFromJson j b = .ok r → Obtained j mayRotate r
  | payload {b : Bytes} {r : Keyring RingKey} : keyringFromWrapPayload j b = .ok r →
      Obtained j mayRotate r
  | union {r other : Keyring RingKey} : Obtained j mayRotate r → Obtained j mayRotate other →
      Obtained j mayRotate (r.unionFrom other).1
  | rotate {r : Keyring RingKey} (key : RingKey) : Obtained j mayRotate r → mayRotate r →
      Obtained j mayRotate (r.rotate key)

/-- A rotation of the ring mints a generation above all it holds, adds that one and changes no key. -/
def RotatesAbove (r : Keyring RingKey) : Prop := ∀ key : RingKey,
  (∀ g ∈ r.keys, g < r.nextGen) ∧ (r.rotate key).keys[r.nextGen]? = some key ∧
    ∀ g, g ≠ r.nextGen → (r.rotate key).keys[g]? = r.keys[g]?

/-- A union of the rings holds the generations of both, with the other's key where it has one, and
reports those it gained or replaced in ascending order. -/
structure UnionExact (r other : Keyring RingKey) : Prop where
  keys : ∀ g : Nat, (r.unionFrom other).1.keys[g]? = (other.keys[g]?).or r.keys[g]?
  adopted : ∀ g, g ∈ (r.unionFrom other).2 ↔
    other.keys[g]? ≠ none ∧ other.keys[g]? ≠ r.keys[g]?
  sorted : (r.unionFrom other).2.Pairwise (· < ·)

/-- The last generation of 32 bits. -/
def lastGen : Nat := 2 ^ 32 - 1

section
variable {j : MapJson} {r other : Keyring RingKey}

/-- A union of rings that can be stored can be stored. -/
theorem Keyring.Storable.union (h : r.Storable) (h' : other.Storable) :
    (r.unionFrom other).1.Storable := by
  constructor
  · intro g hg
    exact (Keyring.mem_unionFrom.mp hg).elim (h'.pos g) (h.pos g)
  · intro g hg
    exact (Keyring.mem_unionFrom.mp hg).elim (h'.u32 g) (h.u32 g)

/-- The next generation of a ring below the last. -/
theorem nextGen_of_ne_last (h : r.Storable) (hlast : r.newestGen ≠ lastGen) :
    r.nextGen = r.newestGen + 1 ∧ r.newestGen + 1 < 2 ^ 32 := by
  have hlt := h.u32 _ r.newestGen_mem
  have hsucc : r.newestGen + 1 < 2 ^ 32 := by
    unfold lastGen at hlast
    omega
  exact ⟨Keyring.nextGen_eq hsucc, hsucc⟩

/-- A rotation below the last generation leaves a ring that can be stored. -/
theorem Keyring.Storable.rotate (h : r.Storable) (hlast : r.newestGen ≠ lastGen) (key : RingKey) :
    (r.rotate key).Storable := by
  obtain ⟨hnext, hlt⟩ := nextGen_of_ne_last h hlast
  constructor
  · intro g hg
    rcases Keyring.mem_rotate.mp hg with rfl | hg
    · omega
    · exact h.pos g hg
  · intro g hg
    rcases Keyring.mem_rotate.mp hg with rfl | hg
    · omega
    · exact h.u32 g hg

/-- **A rotation mints a generation above all others** unless the ring holds the last one. -/
theorem rotatesAbove_iff (h : r.Storable) : RotatesAbove r ↔ r.newestGen ≠ lastGen := by
  constructor
  · intro habove hlast
    have hlt := (habove r.newest.2).1 _ r.newestGen_mem
    rw [Keyring.nextGen, hlast] at hlt
    exact absurd hlt (by decide)
  · intro hlast key
    obtain ⟨hnext, -⟩ := nextGen_of_ne_last h hlast
    refine ⟨fun g hg => ?_, ?_, fun g hg => ?_⟩
    · have := Keyring.le_newestGen hg
      omega
    · rw [Keyring.rotate_keys, if_pos rfl]
    · rw [Keyring.rotate_keys, if_neg (Ne.symm hg)]

theorem unionExact (r other : Keyring RingKey) : UnionExact r other :=
  ⟨Keyring.unionFrom_keys r other, fun _ => Keyring.mem_adopted, Keyring.adopted_sorted⟩

/-- **Every ring of a device can be stored**, when none that holds the last generation is rotated. -/
theorem Obtained.storable (h : Obtained j (·.newestGen ≠ lastGen) r) : r.Storable := by
  induction h with
  | legacy key => exact storable_fromLegacy key
  | json h => exact storable_of_keyringFromJson h
  | payload h => exact storable_of_keyringFromWrapPayload h
  | union _ _ ih ih' => exact ih.union ih'
  | rotate key _ hlast ih => exact ih.rotate hlast key

end

/-- **A device's ring stays usable** when no ring that holds the last generation is rotated: it has a
generation and none below 1, its stored form is read back, a union with any other such ring is exact,
and a rotation is, unless it holds the last generation itself. -/
theorem obtained_usable (j : MapJson) (hj : j.Faithful) (r : Keyring RingKey)
    (h : Obtained j (·.newestGen ≠ lastGen) r) :
    r.keys ≠ ∅ ∧ (∀ g ∈ r.keys, 1 ≤ g) ∧ keyringFromJson j (keyringJson j r) = .ok r ∧
      (∀ other, Obtained j (·.newestGen ≠ lastGen) other → UnionExact r other) ∧
      (RotatesAbove r ↔ r.newestGen ≠ lastGen) :=
  ⟨r.nonempty, h.storable.pos, keyringFromJson_keyringJson hj h.storable,
    fun other _ => unionExact r other, rotatesAbove_iff h.storable⟩

/-- A ring that is rotated and united with another is stored and read back. -/
theorem obtained_usable_united :
    let r := (((Keyring.fromLegacy (⟨List.replicate 32 7, rfl⟩ : RingKey)).rotate
      ⟨List.replicate 32 9, rfl⟩).unionFrom (Keyring.fromLegacy ⟨List.replicate 32 8, rfl⟩)).1
    r.newestGen = 2 ∧ keyringFromJson compactJson (keyringJson compactJson r) = .ok r ∧
      RotatesAbove r := by
  intro r
  have hr : Obtained compactJson (·.newestGen ≠ lastGen) r :=
    .union (.rotate _ (.legacy _) (by decide +kernel)) (.legacy _)
  obtain ⟨-, -, hback, -, hrotate⟩ := obtained_usable compactJson compactJson_faithful r hr
  have hnewest : r.newestGen = 2 := by decide +kernel
  exact ⟨hnewest, hback, hrotate.mpr (by rw [hnewest]; decide)⟩

/-- **A rotation of a ring that came with the last generation mints generation 0**, which is below the
others and is not read back. -/
theorem last_generation_wraps :
    let key : RingKey := ⟨List.replicate 32 7, rfl⟩
    let stored := Lib.utf8 ('{' :: "\"4294967295\":\"".toList ++ hexEncode key.1 ++ ['"', '}'])
    ∃ r, keyringFromJson compactJson stored = .ok r ∧ r.newestGen = lastGen ∧
      Obtained compactJson (fun _ => True) (r.rotate key) ∧ ¬ RotatesAbove r ∧
      0 ∈ (r.rotate key).keys ∧
      keyringFromJson compactJson (keyringJson compactJson (r.rotate key)) ≠ .ok (r.rotate key) := by
  intro key stored
  let r : Keyring RingKey :=
    ⟨(∅ : Std.ExtTreeMap Nat RingKey compare).insert lastGen key, Std.ExtTreeMap.insert_ne_empty⟩
  have hmem : ∀ g, g ∈ r.keys ↔ g = lastGen := fun g => by
    rw [Std.ExtTreeMap.mem_insert, Std.LawfulEqCmp.compare_eq_iff_eq]
    simp [eq_comm]
  have hstorable : r.Storable := by
    constructor
    · intro g hg
      rw [(hmem g).mp hg]
      decide
    · intro g hg
      rw [(hmem g).mp hg]
      decide
  have hstored : stored = keyringJson compactJson r := by decide +kernel
  have hread : keyringFromJson compactJson stored = .ok r :=
    hstored ▸ keyringFromJson_keyringJson compactJson_faithful hstorable
  have hnewest : r.newestGen = lastGen := (hmem _).mp r.newestGen_mem
  have hzero : 0 ∈ (r.rotate key).keys :=
    Keyring.mem_rotate.mpr (.inl (by rw [Keyring.nextGen, hnewest]; rfl))
  refine ⟨r, hread, hnewest, .rotate key (.json hread) trivial,
    fun h => (rotatesAbove_iff hstorable).mp h hnewest, hzero, fun h => ?_⟩
  exact absurd ((storable_of_keyringFromJson h).pos 0 hzero) (by decide)

end Pear
