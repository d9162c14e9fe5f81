import Pear.Bundles
import Pear.Keyring
import Pear.Lib.Prog

/-!
# Rotation passes

What a writer's device does with the key ring before its converge loop starts, and for `pear rekey`
(`e2e.rs`, the start of `converge` in `loops.rs`). The passes are programs over the calls they make:
to the relay, to the device's files, and for a random key. A call that can fail is answered with an
option, and `none` ends the pass. A wrapped ring is sealed to an X25519 key and opens with its
secret key alone.
-/

namespace Pear

open Pear.Lib

/-- A ring sealed to a member's X25519 key. -/
structure Wrap (K : Type) where
  recipient : Bytes
  ring : Keyring K

/-- The names in `.pear/wrapped_members.json`. -/
abbrev Users := Std.ExtTreeSet Text compare

/-- The calls of a pass. -/
inductive PassOp (K : Type) where
  | loadKeyring
  | storeKeyring (ring : Keyring K)
  | random
  | getWorkspace
  | teamMembers (team : Text)
  | loadWrappedMembers
  | storeWrappedMembers (users : Users)
  | localUserKeypair (name : Text)
  | getMyWrappedKey
  | putWrappedKey (user : Text) (wrap : Wrap K)
  | deleteWrappedKey (user : Text)
  | loadKnownKeys
  | saveKnownKeys (pins : KnownKeys)

/-- What a call is answered with. -/
@[reducible] def PassOp.Ret {K : Type} : PassOp K → Type
  | .loadKeyring => Option (Option (Keyring K))
  | .random => K
  | .getWorkspace => Option (Option Text)
  | .teamMembers _ => Option (List MemberInfo)
  | .loadWrappedMembers => Option (Option Users)
  | .localUserKeypair _ => Option Bytes
  | .getMyWrappedKey => Option (Option (Wrap K))
  | .loadKnownKeys => Option KnownKeys
  | .storeKeyring _ | .storeWrappedMembers _ | .putWrappedKey _ _ | .deleteWrappedKey _
  | .saveKnownKeys _ => Option Unit

/-- How a pass fails. -/
inductive PassError where
  | failed
  | noKeyring
  | noTeam
  | notWrapped
  | cannotWrap
  | panicked
deriving DecidableEq

abbrev Pass (K : Type) := Prog (PassOp K) PassOp.Ret PassError

/-- A call, with `?` on its answer. -/
def need {K α : Type} (op : PassOp K) (answer : op.Ret → Option α) : Pass K α :=
  .call op fun r => match answer r with
    | some a => .done a
    | none => .fail .failed

section
variable {W F A K α : Type} {M : Machine W (PassOp K) PassOp.Ret F A} {C : Contract W (PassOp K)}

/-- A call with `?`, by what a good answer leaves. -/
theorem wp_need {op : PassOp K} {answer : op.Ret → Option α} {Q : α → W → Prop} {w : W}
    (h : wpCall M C op (fun r w => ∀ a, answer r = some a → ∀ w', C.rely w w' → Q a w') w) :
    wp M C Q (need op answer) w := by
  intro w' hr ha out hout
  obtain ⟨hg, hpost⟩ := h w' hr ha out hout
  refine ⟨hg, ?_⟩
  dsimp only
  cases hans : answer out.1 with
  | none => trivial
  | some a => exact hpost a hans

end

/-! ## Wrapping to the team -/

/-- `WrapReport` -/
structure WrapReport where
  wrapped : List Text := []
  skipped : List Text := []
  unsigned : List Text := []
  badSig : List Text := []
  pinChanged : List Text := []
  newlyPinned : List (Text × Text) := []

/-- The variables of the loop of `wrap_maintenance`. -/
structure WrapState where
  report : WrapReport := {}
  pins : KnownKeys
  pinsDirty : Bool := false

section
variable {K : Type} (edVerify : Bytes → Bytes → Bytes → Bool) (sealable : Bytes → Bool)

/-- The pinning of a first sight. A member to wrap to has a full bundle. -/
def WrapState.pinFirst (s : WrapState) (m : MemberInfo) : WrapState :=
  { report := { s.report with
      newlyPinned := s.report.newlyPinned ++ [(m.user, m.ed25519.getD [])] }
    pins := s.pins.pin m.user (m.ed25519.getD [])
    pinsDirty := true }

/-- One member of the loop of `wrap_maintenance`. `wrap_key` refuses some X25519 keys. -/
def wrapMember (ring : Keyring K) (s : WrapState) (m : MemberInfo) : Pass K WrapState :=
  match classifyMember edVerify s.pins m with
  | none => .fail .panicked
  | some .noKey => .done { s with report.skipped := s.report.skipped ++ [m.user] }
  | some .unsigned => .done { s with report.unsigned := s.report.unsigned ++ [m.user] }
  | some .badSig => .done { s with report.badSig := s.report.badSig ++ [m.user] }
  | some .pinChanged => .done { s with report.pinChanged := s.report.pinChanged ++ [m.user] }
  | some (.wrap x25519 firstSight) =>
    let s := if firstSight then s.pinFirst m else s
    if sealable x25519 then do
      need (.putWrappedKey m.user ⟨x25519, ring⟩) id
      return { s with report.wrapped := s.report.wrapped ++ [m.user] }
    else .fail .cannotWrap

/-- `wrap_maintenance` -/
def wrapMaintenance (ring : Keyring K) : Pass K WrapReport := do
  match ← need .getWorkspace id with
  | none => return {}
  | some team =>
    let pins ← need .loadKnownKeys id
    let members ← need (.teamMembers team) id
    let s ← members.foldlM (wrapMember edVerify sealable ring) { pins := pins }
    if s.pinsDirty then
      need (.saveKnownKeys s.pins) id
    return s.report

/-! ## Rotating -/

/-- `unwrap_keyring`: the ring in a wrap, with the secret key of `x25519`. -/
def unwrapKeyring (x25519 : Bytes) (wrap : Wrap K) : Option (Keyring K) :=
  if wrap.recipient = x25519 ∧ wrap.ring.Readable then some wrap.ring else none

/-- Why a merge was skipped. -/
inductive MergeSkip where
  | noName
  | noKeypair
  | noWrap
deriving DecidableEq

/-- `RotationReport` -/
structure RotationReport where
  departed : List Text := []
  rotated : Bool := false
  generation : Nat
  mergedFromRelay : List Nat := []
  mergeSkipped : Option MergeSkip := none
  wrap : WrapReport := {}

variable [DecidableEq K]

/-- `merge_relay_keyring` -/
def mergeRelayKeyring (ring : Keyring K) (name : Option Text) :
    Pass K (Except MergeSkip (Keyring K × List Nat)) :=
  match name with
  | none => return .error .noName
  | some name => .call (.localUserKeypair name) fun keypair => match keypair with
    | none => return .error .noKeypair
    | some x25519 => do
      match ← need .getMyWrappedKey id with
      | none => return .error .noWrap
      | some wrap => match unwrapKeyring x25519 wrap with
        | none => .fail .failed
        | some copy => return .ok (ring.unionFrom copy)

/-- The merge before a rotation: the ring, the generations it took, and why it took none. -/
def mergeFirst (ring : Keyring K) (name : Option Text) :
    Pass K (Keyring K × List Nat × Option MergeSkip) := do
  match ← mergeRelayKeyring ring name with
  | .error why => return (ring, [], some why)
  | .ok (ring, adopted) =>
    if adopted ≠ [] then
      need (.storeKeyring ring) id
    return (ring, adopted, none)

/-- A rotation: merge, mint, store. -/
def rotateRing (ring : Keyring K) (name : Option Text) :
    Pass K (Keyring K × List Nat × Option MergeSkip) := do
  let (ring, adopted, skipped) ← mergeFirst ring name
  let ring ← .call .random fun key => .done (ring.rotate key)
  need (.storeKeyring ring) id
  return (ring, adopted, skipped)

/-- `rotation_maintenance`, with the ring as it leaves it. -/
def rotationMaintenance (ring : Keyring K) (name : Option Text) (force : Bool) :
    Pass K (Keyring K × RotationReport) := do
  match ← need .getWorkspace id with
  | none =>
    if force then .fail .noTeam
    else return (ring, { generation := ring.newestGen })
  | some team =>
    let members ← need (.teamMembers team) id
    let last ← need .loadWrappedMembers id
    let departed := (last.getD ∅).toList.filter fun user => !(members.map (·.user)).contains user
    let rotated := force || !departed.isEmpty
    let (ring, adopted, skipped) ←
      (if rotated then rotateRing ring name else pure (ring, [], none))
    departed.forM fun user => need (.deleteWrappedKey user) id
    let wrap ← wrapMaintenance edVerify sealable ring
    need (.storeWrappedMembers (.ofList wrap.wrapped compare)) id
    return (ring,
      { departed := departed, rotated := rotated, generation := ring.newestGen,
        mergedFromRelay := adopted, mergeSkipped := skipped, wrap := wrap })

/-! ## Starting -/

/-- `load_or_create_workspace_keyring` -/
def loadOrCreateKeyring : Pass K (Keyring K) := do
  match ← need .loadKeyring id with
  | some ring => return ring
  | none =>
    let ring ← .call .random fun key => .done (Keyring.fromLegacy key)
    need (.storeKeyring ring) id
    return ring

/-- `fetch_and_unwrap_workspace_key` -/
def fetchKeyring (name : Option Text) : Pass K (Keyring K) :=
  match name with
  | none => .fail .noKeyring
  | some name => do
    let x25519 ← need (.localUserKeypair name) id
    match ← need .getMyWrappedKey id with
    | none => .fail .notWrapped
    | some wrap => match unwrapKeyring x25519 wrap with
      | none => .fail .failed
      | some ring => return ring

/-- `workspace_key_for_reader` -/
def keyringForReader (name : Option Text) : Pass K (Keyring K) := do
  match ← need .loadKeyring id with
  | some ring => return ring
  | none =>
    let ring ← fetchKeyring name
    need (.storeKeyring ring) id
    return ring

/-- The ring that the converge loop starts with, in a workspace that existed, or that this device
has just created. -/
def convergeKeyring (existed : Bool) (name : Option Text) : Pass K (Keyring K) := do
  match ← need .loadKeyring id with
  | some ring => return ring
  | none => if existed then keyringForReader name else loadOrCreateKeyring

/-- The key pass at the start of `converge`. -/
def convergeKeys (existed : Bool) (name : Option Text) : Pass K (Keyring K × RotationReport) := do
  let ring ← convergeKeyring existed name
  rotationMaintenance edVerify sealable ring name false

/-- `pear rekey` -/
def rekey (name : Option Text) : Pass K (Keyring K × RotationReport) := do
  match ← need .loadKeyring id with
  | none => .fail .noKeyring
  | some ring => rotationMaintenance edVerify sealable ring name true

end

end Pear
