import Pear.Rotation.Departed

/-!
# Heads after a removal

A converge loop keeps the ring of its starting pass for as long as it runs, so a removal changes
nothing for the loops that are running: their heads stay within the reach of whoever held that ring.
And a starting pass rotates only for those its own record names. Where no holder of a ring was
removed since a publishing loop's start, and passes rotate above what absent users were given, a
head is sealed under a generation that no absent user is ever given (`head_out_of_reach`).
-/

namespace Pear

open Pear.Lib

section
variable {D K : Type}

/-- What was given to users who are not on the team is below the ring's newest generation. -/
def Above (ring : Keyring K) (members : List MemberInfo) (given : List (Given D K)) : Prop :=
  ∀ g ∈ given, g.user ∉ members.map (·.user) → g.ring.newestGen < ring.newestGen

/-- What a call needs: a rotation extends a ring that has all that absent users were given, and a
pass that finds nobody of its record gone has a ring above that. -/
def Rotates (v : KeyDevice K) (members : List MemberInfo) (given : List (Given D K)) :
    PassOp K → Prop
  | .storeKeyring _ => v.session.key ≠ none → ∀ r, v.file = .ring r → r.newestGen + 1 < 2 ^ 32 ∧
    ∀ g ∈ given, g.user ∉ members.map (·.user) → g.ring.newestGen ≤ r.newestGen
  | .storeWrappedMembers _ => (∀ user ∈ v.record.getD ∅, user ∈ members.map (·.user)) →
    ∀ r, v.file = .ring r → Above r members given
  | _ => True

/-- The condition on the events of a fleet: members are removed between passes, nobody who was ever
given a ring since the start of a loop that publishes, and passes rotate high enough. -/
def Unexposed (s : KeyFleet D K) : KeyEvent D → Prop
  | .serve _ => False
  | .remove _ => ∀ d, s.pass d = none
  | .publish d => ∀ g ∈ s.world.given, g.user ∉ s.gone d
  | .tick d _ => ∀ kind op k, s.pass d = some (kind, .call op k) →
    Rotates (s.world.devices d) s.world.relay.members s.world.given op
  | .start _ _ _ | .finish _ | .stop _ => True

/-- A pass under way: it was served the team, and once it has rotated or recorded, its ring is above
what absent users were given. -/
structure Rotating (v : KeyDevice K) (members : List MemberInfo) (given : List (Given D K)) :
    Prop where
  lists : ∀ l ∈ v.session.lists, l = members
  present : v.session.rotated = true ∨ v.session.recorded = true → v.file ≠ .missing
  above : v.session.rotated = true ∨ v.session.recorded = true → ∀ r, v.file = .ring r →
    Above r members given

variable {v : KeyDevice K} {members : List MemberInfo} {given : List (Given D K)}

/-- A pass that begins has done nothing yet. -/
theorem Rotating.of_renewed (h : v.session = {}) : Rotating v members given := by
  constructor <;> simp [h]

/-- Present users may be given anything. -/
theorem Above.give {ring : Keyring K} {g : Given D K} (h : Above ring members given)
    (hg : g.user ∈ members.map (·.user)) : Above ring members (g :: given) := by
  intro g' hg' habsent
  rcases List.mem_cons.mp hg' with rfl | hg'
  · exact absurd hg habsent
  · exact h g' hg' habsent

theorem Rotating.give {g : Given D K} (h : Rotating v members given)
    (hg : g.user ∈ members.map (·.user)) : Rotating v members (g :: given) :=
  ⟨h.lists, h.present, fun hs r hr => (h.above hs r hr).give hg⟩

end

section
variable {D K : Type} [DecidableEq K] {v : KeyDevice K} {members : List MemberInfo}
  {given : List (Given D K)} {edVerify : Bytes → Bytes → Bytes → Bool} {entropy : Nat → K}
  {relay : KeyRelay K} {drawn : Nat}

/-- A stored ring. -/
theorem Rotating.store {r : Keyring K} (h : Rotating v members given)
    (hdoes : Does edVerify v (.storeKeyring r)) (hrot : Rotates v members given (.storeKeyring r)) :
    Rotating (v.after entropy relay drawn (.storeKeyring r)) members given := by
  cases hkey : v.session.key with
  | some key =>
    have hsession : (v.after entropy relay drawn (.storeKeyring r)).session = { v.session with
        key := none, minted := v.file.mints :: v.session.minted,
        rotated := v.session.rotated || v.file.isRing } := by
      dsimp only [KeyDevice.after, Session.after]
      rw [hkey]
    refine ⟨by rw [hsession]; exact h.lists, fun _ => nofun, fun hs r' hr' => ?_⟩
    cases hr'
    rw [hsession] at hs
    rcases hdoes.2 with ⟨hfile, -⟩ | ⟨r₀, hfile, ⟨hnone, -⟩ | ⟨key', -, rfl⟩⟩
    · -- A first ring: the session has neither rotated nor recorded.
      rw [hfile] at hs
      simp only [RingFile.isRing, Bool.or_false] at hs
      exact absurd hfile (h.present hs)
    · rw [hkey] at hnone
      cases hnone
    · obtain ⟨hlt, hbelow⟩ := hrot (by rw [hkey]; exact nofun) r₀ hfile
      intro g hg habsent
      rw [Keyring.newestGen_rotate hlt]
      exact Nat.lt_succ_of_le (hbelow g hg habsent)
  | none =>
    have hsession : (v.after entropy relay drawn (.storeKeyring r)).session = v.session := by
      dsimp only [KeyDevice.after, Session.after]
      rw [hkey]
    refine ⟨by rw [hsession]; exact h.lists, fun _ => nofun, fun hs r' hr' => ?_⟩
    cases hr'
    rw [hsession] at hs
    rcases hdoes.2 with ⟨hfile, -⟩ | ⟨r₀, hfile, ⟨-, copy, -, rfl⟩ | ⟨key, hsome, -⟩⟩
    · exact absurd hfile (h.present hs)
    · intro g hg habsent
      rw [Keyring.newestGen_unionFrom]
      exact (h.above hs r₀ hfile g hg habsent).trans_le (Nat.le_max_left _ _)
    · rw [hkey] at hsome
      cases hsome

/-- The record at the end. -/
theorem Rotating.record {users : Users} (h : Rotating v members given)
    (hdoes : Does edVerify v (.storeWrappedMembers users))
    (hrot : Rotates v members given (.storeWrappedMembers users)) :
    Rotating (v.after entropy relay drawn (.storeWrappedMembers users)) members given := by
  obtain ⟨⟨r, hfile⟩, -, -, hdeparted⟩ := hdoes
  refine ⟨h.lists, fun _ hmissing => ?_, fun _ r' hr' => ?_⟩
  · rw [show v.file = .missing from hmissing] at hfile
    cases hfile
  · cases hrotated : v.session.rotated with
    | true => exact h.above (.inl hrotated) r' hr'
    | false =>
      obtain ⟨listed, hlisted, hstill⟩ := hdeparted hrotated
      rw [h.lists listed hlisted] at hstill
      exact hrot hstill r' hr'

variable [DecidableEq D] {d : D} {op : PassOp K} {w w' : KeyWorld D K}

/-- A call of the pass. -/
theorem Rotating.effect (h : Rotating (w.devices d) w.relay.members w.given)
    (hdoes : Does edVerify (w.devices d) op)
    (hrot : Rotates (w.devices d) w.relay.members w.given op) :
    Rotating ((effect entropy d op w).devices d) (effect entropy d op w).relay.members
      (effect entropy d op w).given := by
  rw [effect_devices]
  generalize w.devices d = v at h hdoes hrot ⊢
  cases op with
  | storeKeyring r => exact h.store hdoes hrot
  | storeWrappedMembers users => exact h.record hdoes hrot
  | putWrappedKey user wrap =>
    obtain ⟨-, -, -, listed, hlisted, huser⟩ := hdoes
    rw [h.lists listed hlisted] at huser
    exact Rotating.give ⟨h.lists, h.present, h.above⟩ huser
  | teamMembers team => exact ⟨List.forall_mem_cons.mpr ⟨rfl, h.lists⟩, h.present, h.above⟩
  | loadKeyring | getMyWrappedKey =>
    dsimp only [KeyDevice.after, Session.after]
    split <;> exact ⟨h.lists, h.present, h.above⟩
  | random | getWorkspace | loadWrappedMembers | localUserKeypair | deleteWrappedKey
  | loadKnownKeys | saveKnownKeys => exact ⟨h.lists, h.present, h.above⟩

/-- What a pass gives, it gives to the team. -/
theorem Rotating.given_eq (h : Rotating (w.devices d) w.relay.members w.given)
    (hdoes : Does edVerify (w.devices d) op) (ht : Touched entropy d op w w') :
    w'.given = w.given ∨
      ∃ g : Given D K, g.user ∈ w.relay.members.map (·.user) ∧ w'.given = g :: w.given := by
  rcases ht with rfl | rfl | ⟨r, rfl, rfl⟩
  · exact .inl rfl
  · cases op with
    | putWrappedKey user wrap =>
      obtain ⟨-, -, -, listed, hlisted, huser⟩ := hdoes
      rw [h.lists listed hlisted] at huser
      exact .inr ⟨⟨d, user, wrap.ring⟩, huser, rfl⟩
    | _ => exact .inl rfl
  · exact .inl rfl

/-- A step of the device's own pass. -/
theorem Rotating.touched (h : Rotating (w.devices d) w.relay.members w.given)
    (hdoes : Does edVerify (w.devices d) op)
    (hrot : Rotates (w.devices d) w.relay.members w.given op) (ht : Touched entropy d op w w') :
    Rotating (w'.devices d) w'.relay.members w'.given := by
  rcases ht with rfl | rfl | ⟨r, rfl, rfl⟩
  · exact h
  · exact h.effect hdoes hrot
  · simp only [Pear.tear, Function.update_self]
    exact ⟨h.lists, fun _ hfile => (by cases hfile), fun _ _ hfile => (by cases hfile)⟩

end

/-! ## Fleets -/

section
variable {D K : Type} [DecidableEq D] [DecidableEq K] {entropy : Nat → K}
  {edVerify : Bytes → Bytes → Bytes → Bool} {sealable : Bytes → Bool} {s s' t : KeyFleet D K}
  {e : KeyEvent D} {d : D}

variable (entropy edVerify) in
/-- What holds of a fleet: the ring of a loop is above what absent users were given, but for those
who were removed since. -/
structure Guarded (s : KeyFleet D K) : Prop where
  sound : Sound entropy edVerify s
  team : s.world.relay.team ≠ none
  passes : ∀ d, s.pass d ≠ none →
    Rotating (s.world.devices d) s.world.relay.members s.world.given
  loops : ∀ d ring, s.loop d = some ring → ∀ g ∈ s.world.given,
    g.user ∉ s.world.relay.members.map (·.user) →
    g.ring.newestGen < ring.newestGen ∨ g.user ∈ s.gone d

/-- **One step keeps the rings of the running loops above what absent users were given.** -/
theorem Guarded.step (h : Guarded entropy edVerify s) (hok : Unexposed s e)
    (hs : fleetStep entropy edVerify sealable s e = some s') : Guarded entropy edVerify s' := by
  have hsound := h.sound.step hs
  cases e with
  | serve => exact hok.elim
  | publish d =>
    obtain ⟨ring, -, rfl⟩ := Option.map_eq_some_iff.mp hs
    exact ⟨hsound, h.team, h.passes, h.loops⟩
  | stop d =>
    cases hs
    exact ⟨hsound, h.team, fun d' hp => h.passes d' (pass_ne_of_update_none hp), h.loops⟩
  | remove user =>
    cases hs
    refine ⟨hsound, h.team, fun d hp => absurd (hok d) hp, fun d ring hring g hg habsent => ?_⟩
    by_cases hu : g.user = user
    · exact .inr (hu ▸ List.mem_cons_self)
    · refine (h.loops d ring hring g hg fun hmem => habsent ?_).imp id (List.mem_cons_of_mem _)
      obtain ⟨m, hm, hname⟩ := List.mem_map.mp hmem
      refine List.mem_map.mpr ⟨m, List.mem_filter.mpr ⟨hm, ?_⟩, hname⟩
      simpa [hname] using hu
  | tick d t =>
    obtain ⟨kind, op, k, p, w, hp, hdoes, htouched, rfl, -⟩ := h.sound.tick hs
    obtain ⟨hother, hteam⟩ := htouched.frame
    have hpass := h.passes d (by rw [hp]; exact Option.some_ne_none _)
    have hgiven := hpass.given_eq hdoes htouched
    refine ⟨hsound, hteam ▸ h.team, fun d' hp' => ?_, fun d' ring hring => ?_⟩
    · by_cases hd : d' = d
      · subst hd
        exact hpass.touched hdoes (hok kind op k hp) htouched
      · simp only [Function.update_of_ne hd] at hp'
        simp only [hother d' hd, htouched.members_eq]
        rcases hgiven with hgiven | ⟨g, hg, hgiven⟩
        · exact hgiven ▸ h.passes d' hp'
        · exact hgiven ▸ (h.passes d' hp').give hg
    · simp only [htouched.members_eq]
      intro g hg habsent
      rcases hgiven with hgiven | ⟨g', hg', hgiven⟩
      · exact h.loops d' ring hring g (hgiven ▸ hg) habsent
      · rw [hgiven] at hg
        rcases List.mem_cons.mp hg with rfl | hg
        · exact absurd hg' habsent
        · exact h.loops d' ring hring g hg habsent
  | start d kind name =>
    dsimp only [fleetStep] at hs
    split at hs
    · cases hs
    · cases hs
      refine ⟨hsound, h.team, fun d' hp => ?_, fun d' ring hring => ?_⟩
      · by_cases hd : d' = d
        · simp only [KeyWorld.renew, hd, Function.update_self]
          exact .of_renewed rfl
        · simp only [Function.update_of_ne hd] at hp
          simp only [KeyWorld.renew, Function.update_of_ne hd]
          exact h.passes d' hp
      · cases kind with
        | rekey => exact h.loops d' ring hring
        | converge existed =>
          dsimp only [KeyFleet.startLoop] at hring ⊢
          by_cases hd : d' = d
          · rw [hd, Function.update_self] at hring
            cases hring
          · rw [Function.update_of_ne hd] at hring ⊢
            exact h.loops d' ring hring
  | finish d =>
    dsimp only [fleetStep] at hs
    split at hs
    · rename_i kind ring report hp
      cases hs
      refine ⟨hsound, h.team, fun d' hp' => h.passes d' (pass_ne_of_update_none hp'),
        fun d' ring' hring => ?_⟩
      cases kind with
      | rekey => exact h.loops d' ring' hring
      | converge existed =>
        dsimp only [KeyFleet.returned] at hring ⊢
        by_cases hd : d' = d
        · rw [hd, Function.update_self] at hring
          cases hring
          have hfin := h.sound.finished hp
          have habove := (h.passes d (by rw [hp]; exact Option.some_ne_none _)).above
            (.inr (hfin.recorded.resolve_left h.team)) ring hfin.file
          exact fun g hg habsent => .inl (habove g hg habsent)
        · rw [Function.update_of_ne hd] at hring
          exact h.loops d' ring' hring
    · cases hs
      exact ⟨hsound, h.team, fun d' hp' => h.passes d' (pass_ne_of_update_none hp'), h.loops⟩
    · cases hs
    · cases hs

/-- Later, the team has lost members at most, and nobody who was absent was given anything. -/
structure Since (s t : KeyFleet D K) : Prop where
  members : ∀ m ∈ t.world.relay.members, m ∈ s.world.relay.members
  given : ∀ g ∈ t.world.given, g.user ∉ s.world.relay.members.map (·.user) → g ∈ s.world.given

theorem Since.step (h : Since s t) (hi : Guarded entropy edVerify t) (hok : Unexposed t e)
    (hs : fleetStep entropy edVerify sealable t e = some s') : Since s s' := by
  cases e with
  | serve => exact hok.elim
  | publish d =>
    obtain ⟨ring, -, rfl⟩ := Option.map_eq_some_iff.mp hs
    exact ⟨h.members, h.given⟩
  | stop d =>
    cases hs
    exact ⟨h.members, h.given⟩
  | remove user =>
    cases hs
    exact ⟨fun m hm => h.members m (List.mem_of_mem_filter hm), h.given⟩
  | start d kind name =>
    dsimp only [fleetStep] at hs
    split at hs
    · cases hs
    · cases hs
      exact ⟨h.members, h.given⟩
  | finish d =>
    dsimp only [fleetStep] at hs
    split at hs
    · cases hs
      exact ⟨h.members, h.given⟩
    · cases hs
      exact ⟨h.members, h.given⟩
    · cases hs
    · cases hs
  | tick d t' =>
    obtain ⟨kind, op, k, p, w, hp, hdoes, htouched, rfl, -⟩ := hi.sound.tick hs
    refine ⟨fun m hm => h.members m (htouched.members_eq ▸ hm), fun g hg habsent => ?_⟩
    rcases (hi.passes d (by rw [hp]; exact nofun)).given_eq hdoes htouched with
      hgiven | ⟨g', hg', hgiven⟩
    · exact h.given g (hgiven ▸ hg) habsent
    · simp only [hgiven] at hg
      rcases List.mem_cons.mp hg with rfl | hg
      · obtain ⟨m, hm, hname⟩ := List.mem_map.mp hg'
        exact absurd (List.mem_map.mpr ⟨m, h.members m hm, hname⟩) habsent
      · exact h.given g hg habsent

/-- **A head that is committed after a member left is sealed under a generation that was never given
to that member, and never will be.** -/
theorem head_out_of_reach {s₀ : KeyFleet D K} {before after : List (KeyEvent D)} {user : Text}
    {head : SealedHead D K} {g : Given D K}
    (hidle : ∀ d, s₀.pass d = none ∧ s₀.loop d = none) (hteam : s₀.world.relay.team ≠ none)
    (run : Run (fleetStep entropy edVerify sealable) Unexposed s₀ before s)
    (hok : Unexposed s (.publish d))
    (hpublish : fleetStep entropy edVerify sealable s (.publish d) = some s')
    (hhead : s'.heads = head :: s.heads)
    (hleft : user ∉ s.world.relay.members.map (·.user))
    (run' : Run (fleetStep entropy edVerify sealable) Unexposed s' after t)
    (hg : g ∈ t.world.given) (huser : g.user = user) : head.generation ∉ g.ring.keys := by
  have hstart : Guarded entropy edVerify s₀ := by
    refine ⟨fun d kind p hp => ?_, hteam, fun d hp => absurd (hidle d).1 hp,
      fun d ring hring => ?_⟩
    · rw [(hidle d).1] at hp
      cases hp
    · rw [(hidle d).2] at hring
      cases hring
  have hi := run.invariant (fun _ _ _ hi hc hs => Guarded.step hi hc hs) hstart
  have hi' := hi.step hok hpublish
  have hsince := (run'.invariant (I := fun t => Guarded entropy edVerify t ∧ Since s' t)
    (fun _ _ _ hi hc hs => ⟨hi.1.step hc hs, hi.2.step hi.1 hc hs⟩)
    ⟨hi', fun _ hm => hm, fun _ hg _ => hg⟩).2
  obtain ⟨ring, hring, rfl⟩ := Option.map_eq_some_iff.mp hpublish
  obtain rfl : ⟨d, ring.newest.1, ring.newest.2⟩ = head := (List.cons.inj hhead).1
  subst huser
  have hold : g ∈ s.world.given := hsince.given g hg hleft
  have hlt : g.ring.newestGen < ring.newestGen :=
    (hi.loops d ring hring g hold hleft).resolve_right (hok g hold)
  intro hmem
  exact absurd (Keyring.le_newestGen hmem) (Nat.not_le.mpr hlt)

end

/-! ## Two runs -/

/-- `Unexposed`, as a check. -/
def unexposed (s : KeyFleet Unit Nat) : KeyEvent Unit → Bool
  | .serve _ => false
  | .remove _ => (s.pass ()).isNone
  | .publish _ => s.world.given.all fun g => !(s.gone ()).contains g.user
  | .tick _ _ => match s.pass (), (s.world.devices ()).file with
    | some (_, .call (.storeKeyring _) _), .ring r => r.newestGen + 1 < 2 ^ 32 &&
      s.world.given.all fun g => g.ring.newestGen ≤ r.newestGen
    | some (_, .call (.storeWrappedMembers _) _), .ring r =>
      !(((s.world.devices ()).record.getD ∅).toList.all fun user =>
        (s.world.relay.members.map (·.user)).contains user) ||
      s.world.given.all fun g => (s.world.relay.members.map (·.user)).contains g.user ||
        g.ring.newestGen < r.newestGen
    | _, _ => true
  | .start _ _ _ | .finish _ | .stop _ => true

theorem unexposed_of_check (s : KeyFleet Unit Nat) (e : KeyEvent Unit)
    (h : unexposed s e = true) : Unexposed s e := by
  cases e with
  | serve members => cases h
  | remove user => exact fun _ => Option.isNone_iff_eq_none.mp h
  | publish d => simpa [unexposed, Unexposed] using h
  | start d kind name | finish d | stop d => trivial
  | tick d t =>
    intro kind op k hp
    rw [unexposed, hp] at h
    cases op with
    | storeKeyring ring =>
      intro _ r hr
      rw [show (s.world.devices ()).file = .ring r from hr] at h
      dsimp only at h
      rw [Bool.and_eq_true, List.all_eq_true] at h
      exact ⟨of_decide_eq_true h.1, fun g hg _ => of_decide_eq_true (h.2 g hg)⟩
    | storeWrappedMembers users =>
      intro hstill r hr g hg habsent
      rw [show (s.world.devices ()).file = .ring r from hr] at h
      dsimp only at h
      rw [Bool.or_eq_true, Bool.not_eq_true', List.all_eq_false] at h
      rcases h with ⟨user, huser, hgone⟩ | h
      · exact absurd (List.contains_iff_mem.mpr
          (hstill user (Std.ExtTreeSet.mem_toList.mp huser))) hgone
      · have := List.all_eq_true.mp h g hg
        rw [Bool.or_eq_true, List.contains_iff_mem] at this
        exact of_decide_eq_true (this.resolve_left habsent)
    | _ => trivial

/-- A member is removed while a loop runs, the loop starts again, and its head is out of reach. -/
theorem head_out_of_reach_restart :
    ∃ s : KeyFleet Unit Nat, ∃ head g, s.heads = [head] ∧ g ∈ s.world.given ∧ g.user = ['a'] ∧
      head.generation ∉ g.ring.keys := by
  have hrun : ((replay (fun s e => if unexposed s e then plainStep s e else none) oneWriter
      (passOf 10 ++ [.finish (), .remove ['a']] ++ passOf 11 ++ [.finish ()])).bind fun s =>
      if unexposed s (.publish ()) then (plainStep s (.publish ())).map fun s' =>
        s.heads.isEmpty && !(s.world.relay.members.map (·.user)).contains ['a'] &&
          s'.world.given.any fun g => g.user = ['a']
      else none) = some true := by
    decide +kernel
  obtain ⟨s, hs, hrest⟩ := Option.bind_eq_some_iff.mp hrun
  split at hrest
  · rename_i hok
    obtain ⟨s', hs', hfacts⟩ := Option.map_eq_some_iff.mp hrest
    obtain ⟨ring, hring, rfl⟩ := Option.map_eq_some_iff.mp hs'
    rw [Bool.and_eq_true, Bool.and_eq_true, List.isEmpty_iff, Bool.not_eq_true',
      List.contains_eq_mem, decide_eq_false_iff_not, List.any_eq_true] at hfacts
    obtain ⟨⟨hempty, hleft⟩, g, hg, huser⟩ := hfacts
    refine ⟨_, _, g, by rw [hempty], hg, of_decide_eq_true huser, head_out_of_reach
      (fun _ => ⟨rfl, rfl⟩) (Option.some_ne_none []) (.of_replay_if unexposed_of_check hs)
      (unexposed_of_check _ _ hok) hs' rfl hleft (.nil _) hg (of_decide_eq_true huser)⟩
  · cases hrest

/-- The last head is sealed under a generation that an absent user was given. -/
def exposed (s : KeyFleet Unit Nat) (user : Text) : Bool :=
  match s.heads with
  | [] => false
  | head :: _ => !(s.world.relay.members.map (·.user)).contains user &&
    s.world.given.any fun g => g.user = user && g.ring.keys.contains head.generation

/-- **A running loop goes on under the ring it started with**: a member that has it is removed, and
the next head is sealed under the generation that was wrapped to that member. -/
theorem head_within_reach :
    ∃ s s', Run plainStep TeamWaits oneWriter (passOf 10 ++ [.finish (), .remove ['a']]) s ∧
      plainStep s (.publish ()) = some s' ∧ ['a'] ∉ s'.world.relay.members.map (·.user) ∧
      ∃ head ∈ s'.heads.head?, ∃ g ∈ s'.world.given, g.user = ['a'] ∧
        head.generation ∈ g.ring.keys := by
  have hrun : ((replay (fun s e => if decide (TeamWaits s e) then plainStep s e else none)
      oneWriter (passOf 10 ++ [.finish (), .remove ['a']])).bind fun s =>
      (plainStep s (.publish ())).map (exposed · ['a'])) = some true := by
    decide +kernel
  obtain ⟨s, hs, hrest⟩ := Option.bind_eq_some_iff.mp hrun
  obtain ⟨s', hs', hexposed⟩ := Option.map_eq_some_iff.mp hrest
  refine ⟨s, s', .of_replay_if (fun _ _ => of_decide_eq_true) hs, hs', ?_⟩
  unfold exposed at hexposed
  split at hexposed
  · cases hexposed
  · rename_i head heads hheads
    rw [Bool.and_eq_true, Bool.not_eq_true', List.contains_eq_mem, decide_eq_false_iff_not,
      List.any_eq_true] at hexposed
    obtain ⟨hgone, g, hg, hfacts⟩ := hexposed
    rw [Bool.and_eq_true, decide_eq_true_iff] at hfacts
    exact ⟨hgone, head, by rw [hheads]; rfl, g, hg, hfacts.1,
      Std.ExtTreeMap.mem_iff_contains.mpr hfacts.2⟩

end Pear
