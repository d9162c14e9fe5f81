import Pear.Rotation

/-!
# Writers of one workspace

The devices of an end-to-end encrypted workspace and its relay. Each device runs at most one pass at
a time, call by call, so the passes of several interleave; a call may fail, with its effect or
without, and a pass may be stopped anywhere. A converge loop that has started keeps the ring of its
pass, and its heads are sealed under that ring's newest generation. The team and the bundles it
serves are the relay's, truthfully.

The sessions, the log of the wraps the relay was given, and what a fleet remembers are history:
nothing that a device does depends on them.
-/

namespace Pear

open Pear.Lib

/-- `.pear/workspace_keys`; a write that is cut short leaves it torn. -/
inductive RingFile (K : Type) where
  | missing
  | torn
  | ring (r : Keyring K)

/-- What the pass under way has done: the rings it read, a key it drew and has not stored, the
generations it minted, whether it rotated, the member lists it was served, whom it wrapped, and
whether it recorded them. -/
structure Session (K : Type) where
  read : List (Keyring K) := []
  key : Option K := none
  minted : List Nat := []
  rotated : Bool := false
  lists : List (List MemberInfo) := []
  wrapped : List Text := []
  recorded : Bool := false

/-- A writer's device: its files, its user keypairs, and the account its token is for. -/
structure KeyDevice (K : Type) where
  file : RingFile K
  record : Option Users
  pins : KnownKeys
  keypairs : Text → Option Bytes
  account : Text
  session : Session K := {}

/-- What the relay has of the workspace's keys. -/
structure KeyRelay (K : Type) where
  team : Option Text
  members : List MemberInfo
  wraps : Std.ExtTreeMap Text (Wrap K) compare

/-- A wrap the relay was given. -/
structure Given (D K : Type) where
  device : D
  user : Text
  ring : Keyring K

structure KeyWorld (D K : Type) where
  devices : D → KeyDevice K
  relay : KeyRelay K
  drawn : Nat := 0
  given : List (Given D K) := []

/-- A call that fails has no effect, or has it all the same, or tears the file it writes. -/
inductive KeyFault where
  | lost
  | unacked
  | torn
deriving DecidableEq

section
variable {D K : Type} (entropy : Nat → K)

/-- The relay after a call. -/
def KeyRelay.after (r : KeyRelay K) : PassOp K → KeyRelay K
  | .putWrappedKey user wrap => { r with wraps := r.wraps.insert user wrap }
  | .deleteWrappedKey user => { r with wraps := r.wraps.erase user }
  | _ => r

/-- The generation that a ring stored over this file mints, when it has a key that was drawn. -/
def RingFile.mints : RingFile K → Nat
  | .ring r => r.nextGen
  | .missing | .torn => 1

def RingFile.isRing : RingFile K → Bool
  | .ring _ => true
  | .missing | .torn => false

/-- The session after a call. -/
def Session.after (s : Session K) (v : KeyDevice K) (relay : KeyRelay K) (drawn : Nat) :
    PassOp K → Session K
  | .loadKeyring => match v.file with
    | .ring r => { s with read := r :: s.read }
    | .missing | .torn => s
  | .storeKeyring _ => match s.key with
    | some _ => { s with
        key := none, minted := v.file.mints :: s.minted, rotated := s.rotated || v.file.isRing }
    | none => s
  | .random => { s with key := some (entropy drawn) }
  | .teamMembers _ => { s with lists := relay.members :: s.lists }
  | .getMyWrappedKey => match relay.wraps[v.account]? with
    | some wrap => { s with read := wrap.ring :: s.read }
    | none => s
  | .putWrappedKey user _ => { s with wrapped := s.wrapped ++ [user] }
  | .storeWrappedMembers _ => { s with recorded := true }
  | .getWorkspace | .loadWrappedMembers | .localUserKeypair _ | .deleteWrappedKey _
  | .loadKnownKeys | .saveKnownKeys _ => s

/-- The device after a call it makes. -/
def KeyDevice.after (v : KeyDevice K) (relay : KeyRelay K) (drawn : Nat) (op : PassOp K) :
    KeyDevice K where
  file := match op with
    | .storeKeyring r => .ring r
    | _ => v.file
  record := match op with
    | .storeWrappedMembers users => some users
    | _ => v.record
  pins := match op with
    | .saveKnownKeys pins => pins
    | _ => v.pins
  keypairs := v.keypairs
  account := v.account
  session := v.session.after entropy v relay drawn op

variable [DecidableEq D]

/-- The effect of a device's call. -/
def effect (d : D) (op : PassOp K) (w : KeyWorld D K) : KeyWorld D K where
  devices := Function.update w.devices d ((w.devices d).after entropy w.relay w.drawn op)
  relay := w.relay.after op
  drawn := match op with
    | .random => w.drawn + 1
    | _ => w.drawn
  given := match op with
    | .putWrappedKey user wrap => ⟨d, user, wrap.ring⟩ :: w.given
    | _ => w.given

/-- A write of the ring that is cut short. -/
def tear (d : D) (w : KeyWorld D K) : KeyWorld D K :=
  { w with devices := Function.update w.devices d { w.devices d with file := .torn } }

/-- What a call is answered with. -/
def answer (d : D) (w : KeyWorld D K) : (op : PassOp K) → op.Ret
  | .loadKeyring => match (w.devices d).file with
    | .missing => some none
    | .torn => none
    | .ring r => if r.Readable then some (some r) else none
  | .random => entropy w.drawn
  | .getWorkspace => some w.relay.team
  | .teamMembers _ => some w.relay.members
  | .loadWrappedMembers => some (w.devices d).record
  | .localUserKeypair name => (w.devices d).keypairs name
  | .getMyWrappedKey => some w.relay.wraps[(w.devices d).account]?
  | .loadKnownKeys => some (w.devices d).pins
  | .storeKeyring _ | .storeWrappedMembers _ | .putWrappedKey _ _ | .deleteWrappedKey _
  | .saveKnownKeys _ => some ()

/-- A call that fails. Drawing a key does not. -/
def fail (d : D) (f : KeyFault) (w : KeyWorld D K) : (op : PassOp K) → op.Ret × KeyWorld D K
  | .random => (entropy w.drawn, effect entropy d .random w)
  | .storeKeyring r => (none, match f with
    | .lost => w
    | .unacked => effect entropy d (.storeKeyring r) w
    | .torn => tear d w)
  | .putWrappedKey user wrap => (none, match f with
    | .unacked => effect entropy d (.putWrappedKey user wrap) w
    | .lost | .torn => w)
  | .deleteWrappedKey user => (none, match f with
    | .unacked => effect entropy d (.deleteWrappedKey user) w
    | .lost | .torn => w)
  | .storeWrappedMembers users => (none, match f with
    | .unacked => effect entropy d (.storeWrappedMembers users) w
    | .lost | .torn => w)
  | .saveKnownKeys pins => (none, match f with
    | .unacked => effect entropy d (.saveKnownKeys pins) w
    | .lost | .torn => w)
  | .loadKeyring | .getWorkspace | .teamMembers _ | .loadWrappedMembers | .localUserKeypair _
  | .getMyWrappedKey | .loadKnownKeys => (none, w)

/-- A device's calls. -/
def keyMachine (d : D) : Machine (KeyWorld D K) (PassOp K) PassOp.Ret KeyFault Empty where
  exec op w := (answer entropy d w op, effect entropy d op w)
  fault op f w := fail entropy d f w op
  act := nofun

end

/-! ## Fleets -/

/-- Why a pass runs: a converge loop starts, or `pear rekey`. -/
inductive PassKind where
  | converge (existed : Bool)
  | rekey
deriving DecidableEq

/-- What a committed head is sealed under, and by whom. -/
structure SealedHead (D K : Type) where
  device : D
  generation : Nat
  key : K
deriving DecidableEq

/-- The passes under way, the rings that running loops keep, and the committed heads, newest first.
The rest is history: who left the team since a device's last loop began to start, and which heads
there were when its pass began, and when the last pass that rotated and ended began. -/
structure KeyFleet (D K : Type) where
  world : KeyWorld D K
  pass : D → Option (PassKind × Pass K (Keyring K × RotationReport)) := fun _ => none
  loop : D → Option (Keyring K) := fun _ => none
  heads : List (SealedHead D K) := []
  gone : D → List Text := fun _ => []
  began : D → List (SealedHead D K) := fun _ => []
  merged : D → List (SealedHead D K) := fun _ => []

inductive KeyEvent (D : Type) where
  | start (d : D) (kind : PassKind) (name : Option Text)
  | tick (d : D) (t : Tick KeyFault Empty)
  | finish (d : D)
  | stop (d : D)
  | publish (d : D)
  | serve (members : List MemberInfo)
  | remove (user : Text)

section
variable {D K : Type} [DecidableEq D] [DecidableEq K] (entropy : Nat → K)
  (edVerify : Bytes → Bytes → Bytes → Bool) (sealable : Bytes → Bool)

/-- The program of a pass. -/
def PassKind.program (name : Option Text) : PassKind → Pass K (Keyring K × RotationReport)
  | .converge existed => convergeKeys edVerify sealable existed name
  | .rekey => Pear.rekey edVerify sealable name

/-- A new session. -/
def KeyWorld.renew (w : KeyWorld D K) (d : D) : KeyWorld D K :=
  { w with devices := Function.update w.devices d { w.devices d with session := {} } }

/-- The relay without a user: the team's removal takes the wrap along. -/
def KeyRelay.remove (r : KeyRelay K) (user : Text) : KeyRelay K where
  team := r.team
  members := r.members.filter (·.user ≠ user)
  wraps := r.wraps.erase user

/-- A loop that starts. -/
def KeyFleet.startLoop (s : KeyFleet D K) (d : D) : PassKind → KeyFleet D K
  | .converge _ => { s with
      loop := Function.update s.loop d none, gone := Function.update s.gone d [] }
  | .rekey => s

/-- A pass that returned. -/
def KeyFleet.returned (s : KeyFleet D K) (d : D) (kind : PassKind) (ring : Keyring K) :
    KeyFleet D K where
  world := s.world
  pass := Function.update s.pass d none
  loop := match kind with
    | .converge _ => Function.update s.loop d (some ring)
    | .rekey => s.loop
  heads := s.heads
  gone := s.gone
  began := s.began
  merged := if (s.world.devices d).session.rotated then
    Function.update s.merged d (s.began d) else s.merged

/-- One event. -/
def fleetStep (s : KeyFleet D K) : KeyEvent D → Option (KeyFleet D K)
  | .start d kind name => match s.pass d with
    | some _ => none
    | none => some { s.startLoop d kind with
        world := s.world.renew d
        pass := Function.update s.pass d (some (kind, kind.program edVerify sealable name))
        began := Function.update s.began d s.heads }
  | .tick d t => match s.pass d with
    | none => none
    | some (kind, p) => ((keyMachine entropy d).step (s.world, p) t).map fun (w, p) =>
      { s with world := w, pass := Function.update s.pass d (some (kind, p)) }
  | .finish d => match s.pass d with
    | some (kind, .done (ring, _)) => some (s.returned d kind ring)
    | some (_, .fail _) => some { s with pass := Function.update s.pass d none }
    | some (_, .call _ _) | none => none
  | .stop d => some { s with pass := Function.update s.pass d none }
  | .publish d => (s.loop d).map fun ring =>
    { s with heads := ⟨d, ring.newest.1, ring.newest.2⟩ :: s.heads }
  | .serve members => some { s with world.relay.members := members }
  | .remove user => some { s with
      world.relay := s.world.relay.remove user, gone := fun d => user :: s.gone d }

end

end Pear
