import Pear.Rotation.Steps

/-!
# Departed members and the record

A pass rotates when somebody it recorded has left the team, and it records whom it wrapped, at its
very end. So what a device must never lose is this: whoever was given the newest generation of its
ring is in the record. A pass that fails after such a wrap loses it, and so does one that does not
rotate and skips a member who was given that generation before. Where neither happens, the next pass
that ends after a departure has rotated (`departed_below_newest`). Nothing follows a record that could
not be stored (`recordsLast_program`), so only a record that is stored need be careful.
-/

namespace Pear

open Pear.Lib

/-! ## The record comes last -/

section
variable {K α β : Type}

/-- A call that does not store the record. -/
def StoresNoRecord : PassOp K → Prop
  | .storeWrappedMembers _ => False
  | _ => True

/-- Where the record cannot be stored, the pass fails. -/
def RecordsLast : Pass K α → Prop
  | .done _ | .fail _ => True
  | .call op k => (¬ StoresNoRecord op → ∀ r, Refused op r → ∃ e, k r = .fail e) ∧
      ∀ r, RecordsLast (k r)

/-- What comes before the record stores none. -/
theorem RecordsLast.bind {p : Pass K α} {f : α → Pass K β}
    (hp : p.Safe StoresNoRecord fun _ => True) (hf : ∀ a, RecordsLast (f a)) :
    RecordsLast (p >>= f) := by
  induction p with
  | done a => exact hf a
  | fail e => trivial
  | call op k ih => exact ⟨fun hop => absurd hp.1 hop, fun r => ih r (hp.2 r)⟩

/-- A call with `?`. -/
theorem safe_need {op : PassOp K} {answer : op.Ret → Option α} (h : StoresNoRecord op) :
    (need op answer).Safe StoresNoRecord fun _ => True := by
  refine ⟨h, fun r => ?_⟩
  dsimp only
  cases answer r <;> trivial

theorem safe_need_bind {op : PassOp K} {answer : op.Ret → Option α} {f : α → Pass K β}
    (h : StoresNoRecord op) (hf : ∀ a, (f a).Safe StoresNoRecord fun _ => True) :
    (need op answer >>= f).Safe StoresNoRecord fun _ => True :=
  .bind ((safe_need h).mono fun a _ => hf a)

variable (edVerify : Bytes → Bytes → Bytes → Bool) (sealable : Bytes → Bool) (ring : Keyring K)

theorem safe_wrapMember (s : WrapState) (m : MemberInfo) :
    (wrapMember edVerify sealable ring s m).Safe StoresNoRecord fun _ => True := by
  unfold wrapMember
  split
  any_goals trivial
  dsimp only
  split
  · exact safe_need_bind trivial fun _ => trivial
  · trivial

theorem safe_wrapMaintenance :
    (wrapMaintenance edVerify sealable ring).Safe StoresNoRecord fun _ => True := by
  refine safe_need_bind trivial fun team => ?_
  cases team with
  | none => trivial
  | some team =>
    refine safe_need_bind trivial fun pins => safe_need_bind trivial fun members => ?_
    refine .bind ((Prog.Safe.foldlM (safe_wrapMember edVerify sealable ring)).mono fun s _ => ?_)
    dsimp only
    split
    · exact safe_need_bind trivial fun _ => trivial
    · trivial

variable [DecidableEq K] (name : Option Text)

theorem safe_mergeRelayKeyring :
    (mergeRelayKeyring ring name).Safe StoresNoRecord fun _ => True := by
  cases name with
  | none => trivial
  | some name =>
    refine ⟨trivial, fun keypair => ?_⟩
    cases keypair with
    | none => trivial
    | some x25519 =>
      refine safe_need_bind trivial fun wrap => ?_
      cases wrap with
      | none => trivial
      | some wrap =>
        dsimp only
        split <;> trivial

theorem safe_mergeFirst : (mergeFirst ring name).Safe StoresNoRecord fun _ => True := by
  refine .bind ((safe_mergeRelayKeyring ring name).mono fun merged _ => ?_)
  cases merged with
  | error why => trivial
  | ok merged =>
    dsimp only
    split
    · exact safe_need_bind trivial fun _ => trivial
    · trivial

theorem safe_rotateRing : (rotateRing ring name).Safe StoresNoRecord fun _ => True :=
  .bind ((safe_mergeFirst ring name).mono fun _ _ =>
    ⟨trivial, fun _ => safe_need_bind trivial fun _ => trivial⟩)

omit [DecidableEq K] in
theorem safe_loadOrCreateKeyring :
    (loadOrCreateKeyring : Pass K (Keyring K)).Safe StoresNoRecord fun _ => True := by
  refine safe_need_bind trivial fun found => ?_
  cases found with
  | some ring => trivial
  | none => exact ⟨trivial, fun _ => safe_need_bind trivial fun _ => trivial⟩

omit [DecidableEq K] in
theorem safe_fetchKeyring :
    (fetchKeyring name : Pass K (Keyring K)).Safe StoresNoRecord fun _ => True := by
  cases name with
  | none => trivial
  | some name =>
    refine safe_need_bind trivial fun x25519 => safe_need_bind trivial fun wrap => ?_
    cases wrap with
    | none => trivial
    | some wrap =>
      dsimp only
      split <;> trivial

omit [DecidableEq K] in
theorem safe_convergeKeyring (existed : Bool) :
    (convergeKeyring existed name : Pass K (Keyring K)).Safe StoresNoRecord fun _ => True := by
  refine safe_need_bind trivial fun found => ?_
  cases found with
  | some ring => trivial
  | none =>
    cases existed with
    | false => exact safe_loadOrCreateKeyring
    | true =>
      refine safe_need_bind trivial fun found => ?_
      cases found with
      | some ring => trivial
      | none =>
        exact .bind ((safe_fetchKeyring name).mono fun _ _ => safe_need_bind trivial fun _ => trivial)

/-- **A pass that cannot store its record fails.** -/
theorem recordsLast_rotationMaintenance (force : Bool) :
    RecordsLast (rotationMaintenance edVerify sealable ring name force) := by
  refine .bind (safe_need trivial) fun team => ?_
  cases team with
  | none =>
    dsimp only
    split <;> trivial
  | some team =>
    refine .bind (safe_need trivial) fun members => .bind (safe_need trivial) fun last => ?_
    refine .bind ?_ fun rotated => .bind ?_ fun _ =>
      .bind (safe_wrapMaintenance edVerify sealable _) fun wrap => ?_
    · split
      · exact safe_rotateRing ring name
      · trivial
    · exact .forM (fun user => safe_need (show StoresNoRecord (.deleteWrappedKey user) from trivial)) _
    · refine ⟨?_, ?_⟩
      · intro _ r hr
        cases hr
        exact ⟨_, rfl⟩
      · intro r
        cases r <;> trivial

theorem recordsLast_program (kind : PassKind) :
    RecordsLast (kind.program edVerify sealable name : Pass K (Keyring K × RotationReport)) := by
  cases kind with
  | converge existed =>
    exact .bind (safe_convergeKeyring name existed) fun ring =>
      recordsLast_rotationMaintenance edVerify sealable ring name false
  | rekey =>
    refine .bind (safe_need trivial) fun found => ?_
    cases found with
    | none => trivial
    | some ring => exact recordsLast_rotationMaintenance edVerify sealable ring name true

end

/-! ## What the record is for -/

section
variable {D K : Type} (d : D)

/-- Whoever this device gave the newest generation of its ring is in its record. -/
def Recorded (v : KeyDevice K) (given : List (Given D K)) : Prop :=
  ∀ r, v.file = .ring r → ∀ g ∈ given, g.device = d → g.ring.newestGen = r.newestGen →
    g.user ∈ v.record.getD ∅

/-- Nobody was given a generation that the device does not have. -/
structure Bounded (v : KeyDevice K) (given : List (Given D K)) : Prop where
  bound : ∀ r, v.file = .ring r → ∀ g ∈ given, g.device = d → g.ring.newestGen ≤ r.newestGen
  missing : v.file = .missing → ∀ g ∈ given, g.device ≠ d

/-- What holds of a device all along its pass. -/
structure Tracked (v : KeyDevice K) (members : List MemberInfo) (given : List (Given D K)) :
    Prop extends Bounded d v given where
  newest : ∀ r, v.file = .ring r → ∀ g ∈ given, g.device = d → g.ring.newestGen = r.newestGen →
    g.user ∈ v.session.wrapped ∨ v.session.rotated = false ∧ g.user ∈ v.record.getD ∅
  lists : ∀ l ∈ v.session.lists, l = members
  wrapped : ∀ user ∈ v.session.wrapped, user ∈ members.map (·.user)
  recorded : v.session.recorded = true → Recorded d v given ∧
    ∀ user ∈ v.record.getD ∅, user ∈ members.map (·.user)

variable {d}

/-- A device at rest. -/
structure AtRest (d : D) (v : KeyDevice K) (given : List (Given D K)) : Prop
    extends Bounded d v given where
  recorded : Recorded d v given

variable {v : KeyDevice K} {members : List MemberInfo} {given : List (Given D K)}

/-- A new session. -/
theorem AtRest.renew (h : AtRest d v given) :
    Tracked d { v with session := {} } members given where
  bound := h.bound
  missing := h.missing
  newest r hr g hg hd hnew := .inr ⟨rfl, h.recorded r hr g hg hd hnew⟩
  lists := nofun
  wrapped := nofun
  recorded := nofun

/-- A torn file. -/
theorem Tracked.tear (h : Tracked d v members given) :
    Tracked d { v with file := .torn } members given where
  bound := nofun
  missing := nofun
  newest := nofun
  lists := h.lists
  wrapped := h.wrapped
  recorded hrec := ⟨nofun, (h.recorded hrec).2⟩

end

/-! ## The conditions -/

section
variable {D K : Type} (edVerify : Bytes → Bytes → Bytes → Bool)

/-- What a call needs: a rotation has a number to mint, and a pass that does not rotate finds a good
bundle for every member who was given the newest generation. -/
def Careful (d : D) (v : KeyDevice K) (members : List MemberInfo) (given : List (Given D K)) :
    PassOp K → Prop
  | .storeKeyring _ => v.session.key ≠ none → ∀ r, v.file = .ring r → r.newestGen + 1 < 2 ^ 32
  | .storeWrappedMembers _ => v.session.rotated = false → ∀ r, v.file = .ring r →
    ∀ g ∈ given, g.device = d → g.ring.newestGen = r.newestGen →
    g.user ∈ members.map (·.user) → ∃ m ∈ members, m.user = g.user ∧ WrapsTo edVerify v.pins m
  | _ => True

variable {edVerify} {d : D} {v : KeyDevice K} {members : List MemberInfo}
  {given : List (Given D K)} [DecidableEq D] [DecidableEq K] {entropy : Nat → K}
  {w : KeyWorld D K} {op : PassOp K}

omit [DecidableEq D] in
/-- A ring that is stored is as new as any that was given; where it is no newer, it was not minted. -/
theorem Tracked.stored {r : Keyring K} (h : Tracked d v members given)
    (hdoes : Does edVerify v (.storeKeyring r))
    (hcare : Careful edVerify d v members given (.storeKeyring r)) {g : Given D K} (hg : g ∈ given)
    (hd : g.device = d) : g.ring.newestGen ≤ r.newestGen ∧
      (g.ring.newestGen = r.newestGen → v.session.key = none ∧
        ∃ r₀, v.file = .ring r₀ ∧ g.ring.newestGen = r₀.newestGen) := by
  rcases hdoes.2 with ⟨hfile, -⟩ | ⟨r₀, hfile, ⟨hkey, copy, -, rfl⟩ | ⟨key, hkey, rfl⟩⟩
  · exact absurd hd (h.missing hfile g hg)
  · have hle := h.bound r₀ hfile g hg hd
    rw [Keyring.newestGen_unionFrom]
    exact ⟨hle.trans (Nat.le_max_left _ _), fun heq => ⟨hkey, r₀, hfile, by omega⟩⟩
  · have hle := h.bound r₀ hfile g hg hd
    rw [Keyring.newestGen_rotate (hcare (by rw [hkey]; exact nofun) r₀ hfile)]
    exact ⟨by omega, fun heq => by omega⟩

omit [DecidableEq D] in
/-- A stored ring. -/
theorem Tracked.store {r : Keyring K} {relay : KeyRelay K} {drawn : Nat}
    (h : Tracked d v members given) (hdoes : Does edVerify v (.storeKeyring r))
    (hcare : Careful edVerify d v members given (.storeKeyring r)) :
    Tracked d (v.after entropy relay drawn (.storeKeyring r)) members given := by
  -- What the session keeps, whether or not the ring was minted.
  obtain ⟨hlists, hwrapped, hrecorded⟩ :
      (v.session.after entropy v relay drawn (.storeKeyring r)).lists = v.session.lists ∧
      (v.session.after entropy v relay drawn (.storeKeyring r)).wrapped = v.session.wrapped ∧
      (v.session.after entropy v relay drawn (.storeKeyring r)).recorded = v.session.recorded := by
    dsimp only [Session.after]
    cases v.session.key <;> exact ⟨rfl, rfl, rfl⟩
  refine ⟨⟨?_, nofun⟩, ?_, ?_, ?_, ?_⟩
  · rintro _ ⟨⟩ g hg hd
    exact (h.stored hdoes hcare hg hd).1
  · rintro _ ⟨⟩ g hg hd heq
    obtain ⟨hkey, r₀, hfile, heq⟩ := (h.stored hdoes hcare hg hd).2 heq
    show g.user ∈ (v.session.after entropy v relay drawn (.storeKeyring r)).wrapped ∨ _
    have hsession : (v.after entropy relay drawn (.storeKeyring r)).session = v.session := by
      dsimp only [KeyDevice.after, Session.after]
      rw [hkey]
    rw [hsession, hwrapped]
    exact h.newest r₀ hfile g hg hd heq
  · exact fun l hl => h.lists l (hlists ▸ hl)
  · exact fun user huser => h.wrapped user (hwrapped ▸ huser)
  · intro hrec
    obtain ⟨hr, hrecord⟩ := h.recorded (hrecorded ▸ hrec)
    refine ⟨?_, hrecord⟩
    rintro _ ⟨⟩ g hg hd heq
    obtain ⟨-, r₀, hfile, heq⟩ := (h.stored hdoes hcare hg hd).2 heq
    exact hr r₀ hfile g hg hd heq

omit [DecidableEq D] in
/-- A wrap that was put. -/
theorem Tracked.put {user : Text} {wrap : Wrap K} {relay : KeyRelay K} {drawn : Nat}
    (h : Tracked d v members given) (hdoes : Does edVerify v (.putWrappedKey user wrap)) :
    Tracked d (v.after entropy relay drawn (.putWrappedKey user wrap)) members
      (⟨d, user, wrap.ring⟩ :: given) := by
  obtain ⟨hfile, hrecorded, -, listed, hlisted, huser⟩ := hdoes
  rw [h.lists listed hlisted] at huser
  refine ⟨⟨?_, ?_⟩, ?_, h.lists, ?_, fun hrec => absurd hrec (by simp [hrecorded, KeyDevice.after,
    Session.after])⟩
  · intro r hr g hg hd
    rcases List.mem_cons.mp hg with rfl | hg
    · rw [show v.file = .ring r from hr] at hfile
      cases hfile
      exact le_rfl
    · exact h.bound r hr g hg hd
  · intro hmissing
    rw [show v.file = .missing from hmissing] at hfile
    cases hfile
  · intro r hr g hg hd hnew
    show g.user ∈ v.session.wrapped ++ [user] ∨ _
    rcases List.mem_cons.mp hg with rfl | hg
    · exact .inl (by simp)
    · rcases h.newest r hr g hg hd hnew with hwrapped | hrec
      · exact .inl (List.mem_append_left _ hwrapped)
      · exact .inr hrec
  · intro user' huser'
    rcases List.mem_append.mp huser' with huser' | huser'
    · exact h.wrapped user' huser'
    · rwa [List.mem_singleton.mp huser']

omit [DecidableEq D] in
/-- The record at the end. -/
theorem Tracked.record {users : Users} {relay : KeyRelay K} {drawn : Nat}
    (h : Tracked d v members given) (hdoes : Does edVerify v (.storeWrappedMembers users))
    (hcare : Careful edVerify d v members given (.storeWrappedMembers users)) :
    Tracked d (v.after entropy relay drawn (.storeWrappedMembers users)) members given := by
  obtain ⟨⟨r, hfile⟩, husers, ⟨listed, hlisted, hcovers⟩, hdeparted⟩ := hdoes
  obtain rfl := h.lists listed hlisted
  have hrecorded : ∀ r, v.file = .ring r → ∀ g ∈ given, g.device = d →
      g.ring.newestGen = r.newestGen → g.user ∈ v.session.wrapped := by
    intro r hr g hg hd hnew
    rcases h.newest r hr g hg hd hnew with hwrapped | ⟨hrot, hrec⟩
    · exact hwrapped
    · obtain ⟨members, hmembers, hstill⟩ := hdeparted hrot
      rw [h.lists members hmembers] at hstill
      obtain ⟨m, hm, hname, hwraps⟩ := hcare hrot r hr g hg hd hnew (hstill _ hrec)
      exact hname ▸ hcovers m hm hwraps
  refine ⟨⟨h.bound, h.missing⟩, fun r hr g hg hd hnew => .inl (hrecorded r hr g hg hd hnew), h.lists,
    h.wrapped, fun _ => ⟨?_, ?_⟩⟩
  · exact fun r hr g hg hd hnew => (husers _).mpr (hrecorded r hr g hg hd hnew)
  · exact fun user huser => h.wrapped user ((husers user).mp huser)

/-- **A call of the pass keeps track.** -/
theorem Tracked.effect
    (h : Tracked d (w.devices d) w.relay.members w.given)
    (hdoes : Does edVerify (w.devices d) op)
    (hcare : Careful edVerify d (w.devices d) w.relay.members w.given op) :
    Tracked d ((effect entropy d op w).devices d) (effect entropy d op w).relay.members
      (effect entropy d op w).given := by
  rw [effect_devices]
  generalize w.devices d = v at h hdoes hcare ⊢
  cases op with
  | storeKeyring r => exact h.store hdoes hcare
  | putWrappedKey user wrap => exact h.put hdoes
  | storeWrappedMembers users => exact h.record hdoes hcare
  | teamMembers team =>
    exact ⟨⟨h.bound, h.missing⟩, h.newest, List.forall_mem_cons.mpr ⟨rfl, h.lists⟩, h.wrapped,
      h.recorded⟩
  | loadKeyring | getMyWrappedKey =>
    dsimp only [KeyDevice.after, Session.after]
    split <;> exact ⟨⟨h.bound, h.missing⟩, h.newest, h.lists, h.wrapped, h.recorded⟩
  | random | getWorkspace | loadWrappedMembers | localUserKeypair | deleteWrappedKey
  | loadKnownKeys | saveKnownKeys =>
    exact ⟨⟨h.bound, h.missing⟩, h.newest, h.lists, h.wrapped, h.recorded⟩

/-- The condition on the events of a fleet, for one of its devices: the team is what it is while the
device's pass runs, a pass that fails or is stopped has given the newest generation to nobody but
whom the record has, and its calls are careful, that of the record where it succeeds. -/
def KeepsRecord (edVerify : Bytes → Bytes → Bytes → Bool) (d : D) (s : KeyFleet D K) :
    KeyEvent D → Prop
  | .serve _ | .remove _ => s.pass d = none
  | .stop d' => d' = d → s.pass d ≠ none → Recorded d (s.world.devices d) s.world.given
  | .finish d' => d' = d → ∀ kind e, s.pass d = some (kind, .fail e) →
    Recorded d (s.world.devices d) s.world.given
  | .tick d' t => d' = d → ∀ kind op k, s.pass d = some (kind, .call op k) →
    t = .go ∨ StoresNoRecord op →
    Careful edVerify d (s.world.devices d) s.world.relay.members s.world.given op
  | .start _ _ _ | .publish _ => True

/-- What holds of the device in a fleet. -/
structure Tracking (edVerify : Bytes → Bytes → Bytes → Bool) (entropy : Nat → K) (d : D)
    (s : KeyFleet D K) : Prop where
  sound : Sound entropy edVerify s
  team : s.world.relay.team ≠ none
  /-- A pass that could not store its record has failed. -/
  running : ∀ kind p, s.pass d = some (kind, p) → RecordsLast p ∧
    (Tracked d (s.world.devices d) s.world.relay.members s.world.given ∨
      Bounded d (s.world.devices d) s.world.given ∧ ∃ e, p = .fail e)
  resting : s.pass d = none → AtRest d (s.world.devices d) s.world.given

end

section
variable {D K : Type} [DecidableEq D] [DecidableEq K] {entropy : Nat → K}
  {edVerify : Bytes → Bytes → Bytes → Bool} {sealable : Bytes → Bool} {d : D} {s s' : KeyFleet D K}

omit [DecidableEq K] in
/-- What other devices give changes nothing for this one. -/
theorem given_of_ne {d' : D} {op : PassOp K} {w w' : KeyWorld D K} (hd : d' ≠ d)
    (h : Touched entropy d' op w w') {g : Given D K} (hg : g ∈ w'.given) (hdev : g.device = d) :
    g ∈ w.given := by
  rcases h with rfl | rfl | ⟨r, rfl, rfl⟩
  · exact hg
  · cases op with
    | putWrappedKey user wrap =>
      rcases List.mem_cons.mp hg with rfl | hg
      · exact absurd hdev hd
      · exact hg
    | _ => exact hg
  · exact hg

omit [DecidableEq D] [DecidableEq K] in
theorem Bounded.of_given {v : KeyDevice K} {given given' : List (Given D K)}
    (h : Bounded d v given) (hg : ∀ g ∈ given', g.device = d → g ∈ given) : Bounded d v given' where
  bound r hr g hmem hd := h.bound r hr g (hg g hmem hd) hd
  missing hm g hmem hd := h.missing hm g (hg g hmem hd) hd

omit [DecidableEq D] [DecidableEq K] in
theorem Tracked.of_given {v : KeyDevice K} {members : List MemberInfo} {given given' : List (Given D K)}
    (h : Tracked d v members given) (hg : ∀ g ∈ given', g.device = d → g ∈ given) :
    Tracked d v members given' where
  toBounded := h.toBounded.of_given hg
  newest r hr g hmem hd := h.newest r hr g (hg g hmem hd) hd
  lists := h.lists
  wrapped := h.wrapped
  recorded hrec := ⟨fun r hr g hmem hd => (h.recorded hrec).1 r hr g (hg g hmem hd) hd,
    (h.recorded hrec).2⟩

omit [DecidableEq D] [DecidableEq K] in
theorem AtRest.of_given {v : KeyDevice K} {given given' : List (Given D K)}
    (h : AtRest d v given) (hg : ∀ g ∈ given', g.device = d → g ∈ given) : AtRest d v given' where
  toBounded := h.toBounded.of_given hg
  recorded r hr g hmem hd := h.recorded r hr g (hg g hmem hd) hd

/-- A step of the device's own pass. -/
theorem Tracked.touched {op : PassOp K} {w w' : KeyWorld D K}
    (h : Tracked d (w.devices d) w.relay.members w.given) (hdoes : Does edVerify (w.devices d) op)
    (hcare : Careful edVerify d (w.devices d) w.relay.members w.given op)
    (ht : Touched entropy d op w w') : Tracked d (w'.devices d) w'.relay.members w'.given := by
  rcases ht with rfl | rfl | ⟨r, rfl, rfl⟩
  · exact h
  · exact h.effect hdoes hcare
  · simp only [Pear.tear, Function.update_self]
    exact h.tear

omit [DecidableEq K] in
/-- A record that may have been stored. -/
theorem Bounded.touched {op : PassOp K} {w w' : KeyWorld D K}
    (h : Bounded d (w.devices d) w.given) (hop : ¬ StoresNoRecord op)
    (ht : Touched entropy d op w w') : Bounded d (w'.devices d) w'.given := by
  rcases ht with rfl | rfl | ⟨r, rfl, rfl⟩
  · exact h
  · cases op with
    | storeWrappedMembers users =>
      rw [effect_devices]
      exact ⟨h.bound, h.missing⟩
    | _ => exact absurd trivial hop
  · exact absurd trivial hop

/-- What a call of a pass is answered with: a failed write of the record is refused. -/
theorem pass_tick {t : Tick KeyFault Empty} {kind : PassKind} {op : PassOp K}
    {k : op.Ret → Pass K (Keyring K × RotationReport)}
    (hs : fleetStep entropy edVerify sealable s (.tick d t) = some s')
    (hp : s.pass d = some (kind, .call op k)) :
    ∃ r, s'.pass d = some (kind, k r) ∧ (t ≠ .go → ¬ StoresNoRecord op → Refused op r) := by
  dsimp only [fleetStep] at hs
  rw [hp] at hs
  obtain ⟨⟨w, p⟩, hstep, rfl⟩ := Option.map_eq_some_iff.mp hs
  cases t with
  | go =>
    cases hstep
    exact ⟨_, Function.update_self .., fun hgo => absurd rfl hgo⟩
  | fault f =>
    cases hstep
    refine ⟨_, Function.update_self .., fun _ hop => ?_⟩
    cases op with
    | storeWrappedMembers users => rfl
    | _ => exact absurd trivial hop
  | act a => cases a

/-- A pass that ends, with everybody it gave the newest generation in the record. -/
theorem Tracking.ended {d' : D} (h : Tracking edVerify entropy d s)
    (hsound : Sound entropy edVerify s') (hworld : s'.world = s.world)
    (hpass : s'.pass = Function.update s.pass d' none)
    (hrec : d' = d → s.pass d ≠ none → Recorded d (s.world.devices d) s.world.given) :
    Tracking edVerify entropy d s' := by
  refine ⟨hsound, hworld ▸ h.team, fun kind p hrun => ?_, fun hnone => ?_⟩
  · rw [hpass] at hrun
    rw [hworld]
    exact h.running kind p (pass_of_update_none hrun)
  · rw [hpass] at hnone
    rw [hworld]
    cases hp : s.pass d with
    | none => exact h.resting hp
    | some running =>
      have hne : s.pass d ≠ none := hp ▸ Option.some_ne_none running
      by_cases hd : d' = d
      · exact ⟨(h.running _ _ hp).2.elim Tracked.toBounded And.left, hrec hd hne⟩
      · rw [Function.update_of_ne (Ne.symm hd)] at hnone
        exact absurd hnone hne

/-- A pass that has returned stored its record. -/
theorem Tracking.tracked {kind : PassKind} {r : Keyring K × RotationReport}
    (h : Tracking edVerify entropy d s) (hp : s.pass d = some (kind, .done r)) :
    Tracked d (s.world.devices d) s.world.relay.members s.world.given :=
  (h.running _ _ hp).2.resolve_right fun hfail => (by obtain ⟨-, e, he⟩ := hfail; cases he)

/-- **One step keeps track of the device.** -/
theorem Tracking.step {e : KeyEvent D} (h : Tracking edVerify entropy d s)
    (hok : KeepsRecord edVerify d s e)
    (hs : fleetStep entropy edVerify sealable s e = some s') :
    Tracking edVerify entropy d s' := by
  have hsound := h.sound.step hs
  cases e with
  | tick d' t =>
    obtain ⟨kind, op, k, p, w, hp, hdoes, htouched, rfl, -⟩ := h.sound.tick hs
    obtain ⟨hother, hteam⟩ := htouched.frame
    have hteam' : w.relay.team ≠ none := hteam ▸ h.team
    by_cases hd : d' = d
    · subst hd
      obtain ⟨r, hr, hrefused⟩ := pass_tick hs hp
      refine ⟨hsound, hteam', fun kind' p' hp' => ?_, fun hnone => (by rw [hr] at hnone; cases hnone)⟩
      rw [hr] at hp'
      cases hp'
      obtain ⟨hlast, htracked⟩ := h.running _ _ hp
      have htracked := htracked.resolve_right fun hfail => (by obtain ⟨-, e, he⟩ := hfail; cases he)
      refine ⟨hlast.2 r, ?_⟩
      by_cases hcall : t = .go ∨ StoresNoRecord op
      · exact .inl (htracked.touched hdoes (hok rfl kind op k hp hcall) htouched)
      · obtain ⟨hgo, hop⟩ := not_or.mp hcall
        exact .inr ⟨htracked.toBounded.touched hop htouched, hlast.1 hop r (hrefused hgo hop)⟩
    · have hgiven : ∀ g ∈ w.given, g.device = d → g ∈ s.world.given :=
        fun g hg hdev => given_of_ne hd htouched hg hdev
      refine ⟨hsound, hteam', fun kind p hrun => ?_, fun hnone => ?_⟩
      · simp only [Function.update_of_ne (Ne.symm hd)] at hrun
        simp only [hother d (Ne.symm hd), htouched.members_eq]
        exact (h.running kind p hrun).imp_right
          (Or.imp (·.of_given hgiven) (And.imp_left (·.of_given hgiven)))
      · simp only [Function.update_of_ne (Ne.symm hd)] at hnone
        simp only [hother d (Ne.symm hd)]
        exact (h.resting hnone).of_given hgiven
  | start d' kind name =>
    dsimp only [fleetStep] at hs
    split at hs
    · cases hs
    · rename_i hp
      cases hs
      by_cases hd : d' = d
      · subst hd
        refine ⟨hsound, h.team, fun kind' p hrun => ?_, fun hnone => ?_⟩
        · simp only [Function.update_self] at hrun
          cases hrun
          simp only [KeyWorld.renew, Function.update_self]
          exact ⟨recordsLast_program edVerify sealable name kind, .inl (h.resting hp).renew⟩
        · simp only [Function.update_self] at hnone
          cases hnone
      · refine ⟨hsound, h.team, fun kind' p hrun => ?_, fun hnone => ?_⟩
        · simp only [Function.update_of_ne (Ne.symm hd)] at hrun
          simp only [KeyWorld.renew, Function.update_of_ne (Ne.symm hd)]
          exact h.running kind' p hrun
        · simp only [Function.update_of_ne (Ne.symm hd)] at hnone
          simp only [KeyWorld.renew, Function.update_of_ne (Ne.symm hd)]
          exact h.resting hnone
  | finish d' =>
    dsimp only [fleetStep] at hs
    split at hs
    · rename_i kind ring report hp
      cases hs
      refine h.ended hsound rfl rfl fun hd _ => ?_
      subst hd
      exact ((h.tracked hp).recorded ((h.sound.finished hp).recorded.resolve_left h.team)).1
    · rename_i kind e hp
      cases hs
      exact h.ended hsound rfl rfl fun hd _ => hok hd kind e (hd ▸ hp)
    · cases hs
    · cases hs
  | stop d' =>
    cases hs
    exact h.ended hsound rfl rfl hok
  | publish d' =>
    obtain ⟨ring, -, rfl⟩ := Option.map_eq_some_iff.mp hs
    exact ⟨hsound, h.team, h.running, h.resting⟩
  | serve members | remove user =>
    cases hs
    refine ⟨hsound, h.team, fun kind p hrun => ?_, h.resting⟩
    rw [show s.pass d = none from hok] at hrun
    cases hrun

/-- **After a pass that ends, the ring's newest generation is above all that were given to anybody
who is not on the team**, where passes keep the record. -/
theorem departed_below_newest {events : List (KeyEvent D)} {kind : PassKind} {ring : Keyring K}
    {report : RotationReport} {g : Given D K} {gen : Nat}
    (hidle : ∀ d, s.pass d = none) (hgiven : s.world.given = [])
    (hteam : s.world.relay.team ≠ none)
    (run : Run (fleetStep entropy edVerify sealable) (KeepsRecord edVerify d) s events s')
    (hdone : s'.pass d = some (kind, .done (ring, report))) (hg : g ∈ s'.world.given)
    (hdevice : g.device = d) (habsent : g.user ∉ s'.world.relay.members.map (·.user))
    (hgen : gen ∈ g.ring.keys) :
    (s'.world.devices d).file = .ring ring ∧ gen < ring.newestGen := by
  have hstart : Tracking edVerify entropy d s := by
    refine ⟨fun d' kind p hp => ?_, hteam, fun kind p hp => ?_, fun _ => ?_⟩
    · rw [hidle d'] at hp
      cases hp
    · rw [hidle d] at hp
      cases hp
    · refine ⟨⟨fun r _ g hg => ?_, fun _ g hg => ?_⟩, fun r _ g hg => ?_⟩ <;>
      · rw [hgiven] at hg
        cases hg
  have h := run.invariant (fun _ _ _ hi hok hs => Tracking.step hi hok hs) hstart
  have hfin := h.sound.finished hdone
  have htracked := h.tracked hdone
  obtain ⟨hrec, hpresent⟩ := htracked.recorded (hfin.recorded.resolve_left h.team)
  refine ⟨hfin.file, ?_⟩
  have hle := htracked.bound ring hfin.file g hg hdevice
  have hne : g.ring.newestGen ≠ ring.newestGen :=
    fun heq => habsent (hpresent _ (hrec ring hfin.file g hg hdevice heq))
  exact (Keyring.le_newestGen hgen).trans_lt (Nat.lt_of_le_of_ne hle hne)

end

/-! ## Two runs -/

/-- A writer of a one-member team, before its first pass. -/
def oneWriter : KeyFleet Unit Nat where
  world :=
    { devices := fun _ =>
        { file := .ring (.fromLegacy 7), record := none, pins := ∅, keypairs := fun _ => none,
          account := [] }
      relay := { team := some [], members := [bundleOf ['a'] '0'], wraps := ∅ } }

/-- A pass of so many calls. -/
def passOf (calls : Nat) : List (KeyEvent Unit) :=
  .start () (.converge true) none :: List.replicate calls (.tick () .go)

/-- The steps of a fleet whose bundles all verify. -/
abbrev plainStep : KeyFleet Unit Nat → KeyEvent Unit → Option (KeyFleet Unit Nat) :=
  fleetStep id (fun _ _ _ => true) fun _ => true

/-- A pass that has returned leaves somebody who is not on the team with a generation that is no
older than its newest. -/
def InReach (s : KeyFleet Unit Nat) : Prop :=
  ∃ kind ring report, s.pass () = some (kind, .done (ring, report)) ∧
    ∃ g ∈ s.world.given, g.user ∉ s.world.relay.members.map (·.user) ∧
      ring.newestGen ≤ g.ring.newestGen

/-- The same, as a check. -/
def inReach (s : KeyFleet Unit Nat) : Bool :=
  match s.pass () with
  | some (_, .done (ring, _)) => s.world.given.any fun g =>
    !(s.world.relay.members.map (·.user)).contains g.user && ring.newestGen ≤ g.ring.newestGen
  | _ => false

theorem inReach_of_check {s : KeyFleet Unit Nat} (h : inReach s = true) : InReach s := by
  unfold inReach at h
  split at h
  · rename_i kind ring report hp
    refine ⟨kind, ring, report, hp, ?_⟩
    simpa using h
  · cases h

/-- `KeepsRecord`, as a check that asks for a little more. -/
def keepsRecord (s : KeyFleet Unit Nat) : KeyEvent Unit → Bool
  | .serve _ | .remove _ => (s.pass ()).isNone
  | .stop _ => false
  | .finish _ => match s.pass () with
    | some (_, .done _) => true
    | _ => false
  | .tick _ _ => match s.pass () with
    | some (_, .call (.storeKeyring _) _) => match (s.world.devices ()).file with
      | .ring r => r.newestGen + 1 < 2 ^ 32
      | .missing | .torn => true
    | some (_, .call (.storeWrappedMembers _) _) => s.world.relay.members.all fun m =>
      match classifyMember (fun _ _ _ => true) (s.world.devices ()).pins m with
      | some (.wrap _ _) => true
      | _ => false
    | _ => true
  | .start _ _ _ | .publish _ => true

theorem keepsRecord_of_check (s : KeyFleet Unit Nat) (e : KeyEvent Unit)
    (h : keepsRecord s e = true) : KeepsRecord (fun _ _ _ => true) () s e := by
  cases e with
  | serve members | remove user => exact Option.isNone_iff_eq_none.mp h
  | stop d => cases h
  | finish d =>
    intro _ kind e hp
    rw [keepsRecord, hp] at h
    cases h
  | start d kind name | publish d => trivial
  | tick d t =>
    intro _ kind op k hp _
    rw [keepsRecord, hp] at h
    cases op with
    | storeKeyring r =>
      intro _ r hr
      dsimp only at h
      rw [hr] at h
      exact of_decide_eq_true h
    | storeWrappedMembers users =>
      intro _ r _ g _ _ _ hmember
      obtain ⟨m, hm, hname⟩ := List.mem_map.mp hmember
      have hwraps := List.all_eq_true.mp h m hm
      split at hwraps
      · rename_i x25519 firstSight hclass
        exact ⟨m, hm, hname, x25519, firstSight, hclass⟩
      · cases hwraps
    | _ => trivial

/-- A pass that wraps the ring for its member, whose removal the next pass then notices. -/
theorem departed_below_newest_removed :
    ∃ s : KeyFleet Unit Nat, ∃ kind ring report, s.pass () = some (kind, .done (ring, report)) ∧
      ∃ g ∈ s.world.given, 1 ∈ g.ring.keys ∧ 1 < ring.newestGen := by
  have hrun : (replay (fun s e => if keepsRecord s e then plainStep s e else none) oneWriter
      (passOf 10 ++ [.finish (), .remove ['a']] ++ passOf 11)).map (fun s =>
        match s.pass () with
        | some (_, .done _) => s.world.given.any fun g =>
          !(s.world.relay.members.map (·.user)).contains g.user && g.ring.keys.contains 1
        | _ => false) = some true := by
    decide +kernel
  obtain ⟨s, hs, hdone⟩ := Option.map_eq_some_iff.mp hrun
  split at hdone
  · rename_i kind r hp
    obtain ⟨g, hg, hgone⟩ := List.any_eq_true.mp hdone
    rw [Bool.and_eq_true, Bool.not_eq_true', List.contains_eq_mem, decide_eq_false_iff_not] at hgone
    have hgen : 1 ∈ g.ring.keys := Std.ExtTreeMap.mem_iff_contains.mpr hgone.2
    exact ⟨s, kind, r.1, r.2, hp, g, hg, hgen, (departed_below_newest (fun _ => rfl) rfl (Option.some_ne_none [])
      (.of_replay_if keepsRecord_of_check hs) hp hg rfl hgone.1 hgen).2⟩
  · cases hdone

/-- The team changes between passes. -/
def TeamWaits (s : KeyFleet Unit Nat) : KeyEvent Unit → Prop
  | .serve _ | .remove _ => s.pass () = none
  | _ => True

instance (s : KeyFleet Unit Nat) : (e : KeyEvent Unit) → Decidable (TeamWaits s e)
  | .serve _ | .remove _ =>
    decidable_of_iff ((s.pass ()).isNone = true) Option.isNone_iff_eq_none
  | .start _ _ _ | .tick _ _ | .finish _ | .stop _ | .publish _ => .isTrue trivial

/-- **A record that is not written loses a departure**: the pass wraps the ring for its member, the
write of the record fails, the member is removed, and the next pass rotates nothing. -/
theorem departure_unnoticed :
    ∃ s, Run plainStep TeamWaits oneWriter
      (passOf 9 ++ [.tick () (.fault .lost), .finish (), .remove ['a']] ++ passOf 8) s ∧
      InReach s := by
  have hrun : (replay (fun s e => if decide (TeamWaits s e) then plainStep s e else none) oneWriter
      (passOf 9 ++ [.tick () (.fault .lost), .finish (), .remove ['a']] ++ passOf 8)).map inReach =
      some true := by
    decide +kernel
  obtain ⟨s, hs, hreach⟩ := Option.map_eq_some_iff.mp hrun
  exact ⟨s, .of_replay_if (fun _ _ => of_decide_eq_true) hs, inReach_of_check hreach⟩

end Pear
