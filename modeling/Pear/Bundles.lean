import Pear.Text
import Pear.Lib.Maps

/-!
# Key bundles and pins

How a writer decides whom to wrap the key ring to (`e2e.rs`, `crypto.rs`, `known_keys.rs`). What the
relay serves of a member is hostile input: `classifyMember` puts it in a bucket, and a member is
wrapped to when the bundle's signature verifies and its identity is the pinned one, or none is
pinned. Decoding slices strings at byte offsets, so a character of more than one byte can make it
panic: then there is no bucket (`none`).
-/

namespace Pear

/-! ## Hex -/

/-- The value of a hex digit. -/
def hexDigit (c : Char) : Option Nat :=
  if '0' ≤ c ∧ c ≤ '9' then some (c.toNat - '0'.toNat)
  else if 'a' ≤ c ∧ c ≤ 'f' then some (c.toNat - 'a'.toNat + 10)
  else if 'A' ≤ c ∧ c ≤ 'F' then some (c.toNat - 'A'.toNat + 10)
  else none

/-- `u8::from_str_radix(…, 16)` of two characters; a sign may stand before a digit. -/
def hexByte (c d : Char) : Option UInt8 :=
  match hexDigit d with
  | none => none
  | some lo =>
    if c = '+' then some (UInt8.ofNat lo)
    else (hexDigit c).map fun hi => UInt8.ofNat (16 * hi + lo)

/-- The length of a string in bytes. -/
def byteLen (s : Text) : Nat := (s.map Char.utf8Size).sum

/-- The loop of `hex_decode`, from a character boundary. A slice that ends inside a character
panics (`none`); one that holds a single character of two bytes is no hex. -/
def hexLoop : Text → Option (Option Bytes)
  | [] => some (some [])
  | [c] => if c.utf8Size = 2 then some none else none
  | c :: d :: rest =>
    if c.utf8Size = 1 then
      if d.utf8Size = 1 then
        match hexByte c d with
        | none => some none
        | some b => (hexLoop rest).map (·.map (b :: ·))
      else none
    else if c.utf8Size = 2 then some none
    else none

/-- `hex_decode`: the bytes, `some none` when the string is no hex, `none` on a panic. -/
def hexDecode (s : Text) : Option (Option Bytes) :=
  if byteLen s % 2 ≠ 0 then some none else hexLoop s

/-- `hex_decode(…).ok().and_then(|b| b.try_into().ok())` for an array of `n` bytes. -/
def decodeArray (n : Nat) (s : Text) : Option (Option Bytes) :=
  (hexDecode s).map (·.filter (·.length = n))

/-! ## Bundles and pins -/

/-- What the relay serves of a team member, as far as wrapping goes (`MemberInfo`). -/
structure MemberInfo where
  user : Text
  pubkey : Option Text
  ed25519 : Option Text
  sig : Option Text
deriving DecidableEq

/-- A member with a full bundle, of a user's name and an identity's hex digit. -/
def bundleOf (user : Text) (identity : Char) : MemberInfo where
  user := user
  pubkey := some (List.replicate 64 '0')
  ed25519 := some (List.replicate 64 identity)
  sig := some (List.replicate 128 '0')

/-- `bundle_statement`: the domain, the user's name and the X25519 key. -/
def bundleStatement (name : Text) (x25519 : Bytes) : Bytes :=
  "pear device key v1".toList.flatMap String.utf8EncodeChar ++ [0] ++
    name.flatMap String.utf8EncodeChar ++ x25519

/-- The pinned identity of each user (`KnownKeys`). -/
abbrev KnownKeys := Std.ExtTreeMap Text Text compare

/-- `PinCheck` -/
inductive PinCheck where
  | firstSight
  | same
  | mismatch
deriving DecidableEq

/-- `known_keys::check` -/
def KnownKeys.check (pins : KnownKeys) (user edHex : Text) : PinCheck :=
  match pins[user]? with
  | none => .firstSight
  | some pinned => if pinned = edHex then .same else .mismatch

/-- `known_keys::pin` -/
def KnownKeys.pin (pins : KnownKeys) (user edHex : Text) : KnownKeys := pins.insert user edHex

/-- The bucket of a member (`MemberClass`). -/
inductive MemberClass where
  | noKey
  | unsigned
  | badSig
  | pinChanged
  | wrap (x25519 : Bytes) (firstSight : Bool)
deriving DecidableEq

/-- `classify_member`, with the signature check of the ed25519 library. -/
def classifyMember (edVerify : Bytes → Bytes → Bytes → Bool) (pins : KnownKeys) (m : MemberInfo) :
    Option MemberClass :=
  match m.pubkey, m.ed25519, m.sig with
  | none, _, _ => some .noKey
  | some _, none, _ | some _, _, none => some .unsigned
  | some pubkey, some edHex, some sigHex => do
    let x25519 ← decodeArray 32 pubkey
    let edPub ← decodeArray 32 edHex
    let sig ← decodeArray 64 sigHex
    match x25519, edPub, sig with
    | some x25519, some edPub, some sig =>
      if edVerify edPub (bundleStatement m.user x25519) sig = false then return .badSig
      match pins.check m.user edHex with
      | .mismatch => return .pinChanged
      | .same => return .wrap x25519 false
      | .firstSight => return .wrap x25519 true
    | _, _, _ => return .badSig

/-! ## Whom a wrap may go to -/

/-- The bundle served of a member has this X25519 key, and verifies under this ed25519 identity. -/
structure MemberInfo.SignedBy (edVerify : Bytes → Bytes → Bytes → Bool) (m : MemberInfo)
    (edHex : Text) (x25519 : Bytes) : Prop where
  identity : m.ed25519 = some edHex
  pubkey : ∃ pubkeyHex, m.pubkey = some pubkeyHex ∧ decodeArray 32 pubkeyHex = some (some x25519)
  verifies : ∃ sigHex edPub sig, m.sig = some sigHex ∧ decodeArray 64 sigHex = some (some sig) ∧
    decodeArray 32 edHex = some (some edPub) ∧
    edVerify edPub (bundleStatement m.user x25519) sig = true

/-- **A member that is wrapped to has a signed bundle**, whose identity is the pinned one, or none
is pinned and it is the first sight. -/
theorem classifyMember_wrap {edVerify : Bytes → Bytes → Bytes → Bool} {pins : KnownKeys}
    {m : MemberInfo} {x25519 : Bytes} {firstSight : Bool}
    (h : classifyMember edVerify pins m = some (.wrap x25519 firstSight)) :
    ∃ edHex, m.SignedBy edVerify edHex x25519 ∧
      pins[m.user]? = if firstSight then none else some edHex := by
  unfold classifyMember at h
  split at h
  · cases h
  · cases h
  · cases h
  · rename_i pubkey edHex sigHex hpub hed hsig
    obtain ⟨x?, hxdec, h⟩ := Option.bind_eq_some_iff.mp h
    obtain ⟨ed?, heddec, h⟩ := Option.bind_eq_some_iff.mp h
    obtain ⟨sig?, hsigdec, h⟩ := Option.bind_eq_some_iff.mp h
    cases x? with
    | none => cases h
    | some x =>
    cases ed? with
    | none => cases h
    | some edPub =>
    cases sig? with
    | none => cases h
    | some sig =>
    dsimp only at h
    cases hverify : edVerify edPub (bundleStatement m.user x) sig with
    | false =>
      rw [hverify] at h
      cases h
    | true =>
      have hsigned : m.SignedBy edVerify edHex x :=
        ⟨hed, ⟨pubkey, hpub, hxdec⟩, ⟨sigHex, edPub, sig, hsig, hsigdec, heddec, hverify⟩⟩
      rw [hverify, if_neg Bool.true_eq_false_eq_False] at h
      unfold KnownKeys.check at h
      cases hpin : pins[m.user]? with
      | none =>
        rw [hpin] at h
        cases h
        exact ⟨edHex, hsigned, rfl⟩
      | some pinned =>
        rw [hpin] at h
        by_cases hsame : pinned = edHex
        · simp only [hsame, if_true] at h
          cases h
          exact ⟨edHex, hsigned, by rw [hsame]; rfl⟩
        · simp only [hsame, if_false] at h
          cases h

end Pear
