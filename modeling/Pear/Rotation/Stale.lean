import Pear.Rotation.Steps

/-!
# Stale rings and the wraps of a fixed team

Every pass wraps its own ring for every member, and only a pass that rotates merges the relay's copy
first. So a wrap loses a generation exactly where the pass that replaces it has never read that
generation, from its own file or from its own wrap, and does not mint it
(`wraps_keep_generations_iff`): the device missed a rotation, and its pass had no reason to rotate.
-/

namespace Pear

open Pear.Lib

section
variable {D K : Type}

/-- The ring that the relay holds wrapped for a user has this generation. -/
def WrapHolds (s : KeyFleet D K) (user : Text) (g : Nat) : Prop :=
  ∃ wrap, s.world.relay.wraps[user]? = some wrap ∧ g ∈ wrap.ring.keys

/-- Whole passes over a team that stays as it is. -/
def SameTeam (_ : KeyFleet D K) : KeyEvent D → Prop
  | .serve _ | .remove _ | .stop _ => False
  | .tick _ t => t = .go
  | .start _ _ _ | .finish _ | .publish _ => True

/-- The pass that replaces a wrap has read, or minted, every generation in it. -/
def Covers (s : KeyFleet D K) : KeyEvent D → Prop
  | .tick d _ => ∀ kind user wrap k, s.pass d = some (kind, .call (.putWrappedKey user wrap) k) →
    ∀ g, WrapHolds s user g → (∃ r ∈ (s.world.devices d).session.read, g ∈ r.keys) ∨
      g ∈ (s.world.devices d).session.minted
  | .start _ _ _ | .finish _ | .stop _ | .publish _ | .serve _ | .remove _ => True

end

section
variable {D K : Type} [DecidableEq D] [DecidableEq K] (entropy : Nat → K)
  (edVerify : Bytes → Bytes → Bytes → Bool) (sealable : Bytes → Bool)

/-- No member's wrap loses a generation at this step. -/
def NoLoss (s : KeyFleet D K) (e : KeyEvent D) : Prop :=
  ∀ s', fleetStep entropy edVerify sealable s e = some s' →
    ∀ m ∈ s.world.relay.members, ∀ g, WrapHolds s m.user g → WrapHolds s' m.user g

/-- What holds along runs over a fixed team: a pass under way was served that team. -/
structure Fixed (s : KeyFleet D K) : Prop where
  sound : Sound entropy edVerify s
  lists : ∀ d, s.pass d ≠ none → ∀ l ∈ (s.world.devices d).session.lists, l = s.world.relay.members

variable {entropy edVerify sealable} {s s' : KeyFleet D K} {e : KeyEvent D} {d : D}

/-- A call that is done. -/
theorem tick_go {kind : PassKind} {op : PassOp K}
    {k : op.Ret → Pass K (Keyring K × RotationReport)} (hp : s.pass d = some (kind, .call op k)) :
    fleetStep entropy edVerify sealable s (.tick d .go) = some { s with
      world := effect entropy d op s.world
      pass := Function.update s.pass d
        (some (kind, k (answer entropy d s.world op))) } := by
  dsimp only [fleetStep]
  rw [hp]
  rfl

omit [DecidableEq K] in
/-- The lists of a device's session after a call. -/
theorem lists_after {op : PassOp K} {w : KeyWorld D K}
    (h : ∀ l ∈ (w.devices d).session.lists, l = w.relay.members) :
    ∀ l ∈ ((effect entropy d op w).devices d).session.lists, l = w.relay.members := by
  rw [effect_devices]
  cases op with
  | teamMembers team => exact List.forall_mem_cons.mpr ⟨rfl, h⟩
  | loadKeyring | getMyWrappedKey | storeKeyring =>
    dsimp only [KeyDevice.after, Session.after]
    split <;> exact h
  | _ => exact h

/-- **Every step over a fixed team keeps what the passes were served.** -/
theorem Fixed.step (h : Fixed entropy edVerify s) (hteam : SameTeam s e)
    (hs : fleetStep entropy edVerify sealable s e = some s') : Fixed entropy edVerify s' := by
  refine ⟨h.sound.step hs, ?_⟩
  cases e with
  | serve | remove | stop => exact hteam.elim
  | publish d =>
    obtain ⟨ring, -, rfl⟩ := Option.map_eq_some_iff.mp hs
    exact h.lists
  | start d kind name =>
    dsimp only [fleetStep] at hs
    split at hs
    · cases hs
    · cases hs
      intro d' hp
      simp only [KeyWorld.renew]
      by_cases hd : d' = d
      · simp [hd]
      · simp only [Function.update_of_ne hd] at hp ⊢
        exact h.lists d' hp
  | finish d =>
    dsimp only [fleetStep] at hs
    split at hs
    · cases hs
      exact fun d' hp => h.lists d' (pass_ne_of_update_none hp)
    · cases hs
      exact fun d' hp => h.lists d' (pass_ne_of_update_none hp)
    · cases hs
    · cases hs
  | tick d t =>
    obtain ⟨kind, op, k, p, w, hp, -, htouched, rfl, -⟩ := h.sound.tick hs
    intro d' hp'
    simp only [htouched.members_eq]
    by_cases hd : d' = d
    · subst hd
      have hlists := h.lists d' (by rw [hp]; exact Option.some_ne_none _)
      rcases htouched with rfl | rfl | ⟨r, rfl, rfl⟩
      · exact hlists
      · exact lists_after hlists
      · simp only [tear, Function.update_self]
        exact hlists
    · simp only [Function.update_of_ne hd] at hp'
      simp only [htouched.frame.1 d' hd]
      exact h.lists d' hp'

/-- **At one step**, no wrap loses a generation if and only if the pass covers the wrap it replaces. -/
theorem noLoss_iff (h : Fixed entropy edVerify s) (hteam : SameTeam s e)
    (hs : fleetStep entropy edVerify sealable s e = some s') :
    NoLoss entropy edVerify sealable s e ↔ Covers s e := by
  have hkeeps : s'.world.relay.wraps = s.world.relay.wraps → NoLoss entropy edVerify sealable s e := by
    intro hwraps s'' hs'' m _ g hg
    rw [hs] at hs''
    cases hs''
    unfold WrapHolds at hg ⊢
    rwa [hwraps]
  cases e with
  | serve | remove | stop => exact hteam.elim
  | publish d =>
    obtain ⟨ring, -, rfl⟩ := Option.map_eq_some_iff.mp hs
    exact iff_of_true (hkeeps rfl) trivial
  | start d kind name =>
    dsimp only [fleetStep] at hs
    split at hs
    · cases hs
    · cases hs
      exact iff_of_true (hkeeps rfl) trivial
  | finish d =>
    dsimp only [fleetStep] at hs
    split at hs
    · cases hs
      exact iff_of_true (hkeeps rfl) trivial
    · cases hs
      exact iff_of_true (hkeeps rfl) trivial
    · cases hs
    · cases hs
  | tick d t =>
    obtain rfl := hteam
    obtain ⟨kind, op, k, _, _, hp, hdoes, -, -, -⟩ := h.sound.tick hs
    have hlists := h.lists d (by rw [hp]; exact nofun)
    rw [tick_go hp] at hs
    cases hs
    -- A call that is no put covers everything.
    have hother : (∀ user wrap, op ≠ .putWrappedKey user wrap) → Covers s (.tick d .go) := by
      rintro hne _ user wrap _ hp'
      rw [hp] at hp'
      cases hp'
      exact absurd rfl (hne user wrap)
    cases op with
    | putWrappedKey user wrap =>
      obtain ⟨-, -, hknown, listed, hlisted, huser⟩ := hdoes
      rw [hlists listed hlisted] at huser
      obtain ⟨m, hm, hname⟩ := List.mem_map.mp huser
      have hput : ∀ user' g, (∃ wrap', (s.world.relay.wraps.insert user wrap)[user']? = some wrap' ∧
          g ∈ wrap'.ring.keys) ↔
          if user = user' then g ∈ wrap.ring.keys else WrapHolds s user' g := by
        intro user' g
        rw [getElem?_insert_eq]
        split
        · exact ⟨fun ⟨_, h, hg⟩ => Option.some.inj h ▸ hg, fun hg => ⟨wrap, rfl, hg⟩⟩
        · exact Iff.rfl
      constructor
      · intro hno _ user' wrap' _ hp' g hg
        rw [hp] at hp'
        cases hp'
        have := (hput m.user g).mp (hno _ (tick_go hp) m hm g (hname ▸ hg))
        rw [if_pos hname.symm] at this
        exact (hknown g).mp this
      · intro hcovers s'' hs'' m' _ g hg
        rw [tick_go hp] at hs''
        cases hs''
        refine (hput m'.user g).mpr ?_
        split
        · rename_i heq
          exact (hknown g).mpr (hcovers _ user wrap _ hp g (heq ▸ hg))
        · exact hg
    | deleteWrappedKey user =>
      obtain ⟨listed, hlisted, huser⟩ := hdoes
      rw [hlists listed hlisted] at huser
      refine iff_of_true ?_ (hother nofun)
      intro s'' hs'' m hm g hg
      rw [tick_go hp] at hs''
      cases hs''
      obtain ⟨wrap, hwrap, hg⟩ := hg
      have hne : user ≠ m.user := fun heq => huser (heq ▸ List.mem_map_of_mem hm)
      exact ⟨wrap, by
        show (s.world.relay.wraps.erase user)[m.user]? = _
        rw [getElem?_erase_eq, if_neg hne, hwrap], hg⟩
    | _ => exact iff_of_true (hkeeps rfl) (hother nofun)

/-- **Over a whole run of passes, no member's wrap ever loses a generation if and only if every pass
covers the wraps it replaces.** -/
theorem wraps_keep_generations_iff {events : List (KeyEvent D)} (hidle : ∀ d, s.pass d = none)
    (run : Run (fleetStep entropy edVerify sealable) SameTeam s events s') :
    Run (fleetStep entropy edVerify sealable) (NoLoss entropy edVerify sealable) s events s' ↔
      Run (fleetStep entropy edVerify sealable) Covers s events s' := by
  refine run.congr (fun _ _ _ hi hc hs => Fixed.step hi hc hs)
    (fun _ _ _ hi hc hs => noLoss_iff hi hc hs)
    ⟨fun d kind p hp => ?_, fun d hp => absurd (hidle d) hp⟩
  rw [hidle d] at hp
  cases hp

end

/-! ## Two runs -/

/-- Two writers with the same ring, and a team of one. -/
def twoWriters : KeyFleet Bool Nat where
  world :=
    { devices := fun _ =>
        { file := .ring (.fromLegacy 7), record := none, pins := ∅, keypairs := fun _ => none,
          account := [] }
      relay := { team := some [], members := [bundleOf ['a'] '0'], wraps := ∅ } }

abbrev plainSteps : KeyFleet Bool Nat → KeyEvent Bool → Option (KeyFleet Bool Nat) :=
  fleetStep id (fun _ _ _ => true) fun _ => true

/-- A pass of so many calls on one of them. -/
def passOn (d : Bool) (kind : PassKind) (calls : Nat) : List (KeyEvent Bool) :=
  .start d kind none :: List.replicate calls (.tick d .go)

/-- `WrapHolds`, as a check. -/
def wrapHolds (s : KeyFleet Bool Nat) (user : Text) (g : Nat) : Bool :=
  s.world.relay.wraps[user]?.any fun wrap => wrap.ring.keys.contains g

theorem wrapHolds_iff {s : KeyFleet Bool Nat} {user : Text} {g : Nat} :
    wrapHolds s user g = true ↔ WrapHolds s user g := by
  simp only [wrapHolds, WrapHolds, Option.any_eq_true, Std.ExtTreeMap.mem_iff_contains]

/-- `SameTeam`, as a check. -/
def sameTeam : KeyEvent Bool → Bool
  | .serve _ | .remove _ | .stop _ | .tick _ (.fault _) | .tick _ (.act _) => false
  | .start _ _ _ | .finish _ | .publish _ | .tick _ .go => true

theorem sameTeam_of_check {es : List (KeyEvent Bool)} (h : es.all sameTeam = true)
    (s : KeyFleet Bool Nat) : ∀ e ∈ es, SameTeam s e := by
  intro e he
  have hcheck := List.all_eq_true.mp h e he
  cases e with
  | serve | remove | stop => cases hcheck
  | start | finish | publish => trivial
  | tick d t => cases t with
    | go => rfl
    | fault f | act a => cases hcheck

/-- `SameTeam` and `Covers`, as a check. -/
def covers (s : KeyFleet Bool Nat) : KeyEvent Bool → Bool
  | .serve _ | .remove _ | .stop _ => false
  | .tick _ (.fault _) | .tick _ (.act _) => false
  | .tick d .go => match s.pass d with
    | some (_, .call (.putWrappedKey user _) _) => match s.world.relay.wraps[user]? with
      | some wrap => wrap.ring.keys.toList.all fun e =>
        (s.world.devices d).session.read.any (·.keys.contains e.1) ||
          (s.world.devices d).session.minted.contains e.1
      | none => true
    | _ => true
  | .start _ _ _ | .finish _ | .publish _ => true

theorem covers_of_check (s : KeyFleet Bool Nat) (e : KeyEvent Bool) (h : covers s e = true) :
    SameTeam s e ∧ Covers s e := by
  cases e with
  | serve | remove | stop => cases h
  | start | finish | publish => exact ⟨trivial, trivial⟩
  | tick d t =>
    cases t with
    | fault f => cases h
    | act a => cases a
    | go =>
      refine ⟨rfl, fun kind user wrap k hp g hg => ?_⟩
      obtain ⟨old, hold, hg⟩ := hg
      rw [covers, hp] at h
      dsimp only at h
      rw [hold] at h
      obtain ⟨key, hkey⟩ := Keyring.mem_keys_iff.mp hg
      have hknown := List.all_eq_true.mp h (g, key)
        (Std.ExtTreeMap.mem_toList_iff_getElem?_eq_some.mpr hkey)
      rw [Bool.or_eq_true, List.any_eq_true, List.contains_iff_mem] at hknown
      rcases hknown with ⟨r, hr, hr'⟩ | hmint
      · exact .inl ⟨r, hr, Std.ExtTreeMap.mem_iff_contains.mpr hr'⟩
      · exact .inr hmint

/-- A rotation after a pass of the other device. -/
theorem wraps_keep_generations_rekey :
    ∃ s, Run plainSteps (NoLoss id (fun _ _ _ => true) fun _ => true) twoWriters
      (passOn false (.converge true) 10 ++ passOn true .rekey 12) s := by
  have hrun : ((replay (fun s e => if covers s e then plainSteps s e else none) twoWriters
      (passOn false (.converge true) 10 ++ passOn true .rekey 12)).map fun _ => ()) = some () := by
    decide +kernel
  obtain ⟨s, hs, -⟩ := Option.map_eq_some_iff.mp hrun
  exact ⟨s, (wraps_keep_generations_iff (fun _ => rfl)
    (.of_replay_if (fun s e h => (covers_of_check s e h).1) hs)).mpr
    (.of_replay_if (fun s e h => (covers_of_check s e h).2) hs)⟩

/-- **A stale device takes a generation away**: one device rotates, and the start of the other one's
loop, which has no reason to rotate, wraps the old ring over the new one. -/
theorem stale_pass_loses_generation :
    ∃ s s', Run plainSteps SameTeam twoWriters (passOn true .rekey 12) s ∧
      Run plainSteps SameTeam s (passOn false (.converge true) 8) s' ∧
      bundleOf ['a'] '0' ∈ s.world.relay.members ∧ WrapHolds s ['a'] 2 ∧ ¬ WrapHolds s' ['a'] 2 := by
  have hrun : ((replay plainSteps twoWriters (passOn true .rekey 12)).bind fun s =>
      (replay plainSteps s (passOn false (.converge true) 8)).map fun s' =>
        (s.world.relay.members.contains (bundleOf ['a'] '0'), wrapHolds s ['a'] 2,
          wrapHolds s' ['a'] 2)) = some (true, true, false) := by
    decide +kernel
  obtain ⟨s, hs, hrest⟩ := Option.bind_eq_some_iff.mp hrun
  obtain ⟨s', hs', hfacts⟩ := Option.map_eq_some_iff.mp hrest
  obtain ⟨hmember, hfacts⟩ := Prod.mk.inj hfacts
  obtain ⟨hbefore, hafter⟩ := Prod.mk.inj hfacts
  refine ⟨s, s', .of_replay (sameTeam_of_check (by decide)) hs,
    .of_replay (sameTeam_of_check (by decide)) hs',
    List.contains_iff_mem.mp hmember, wrapHolds_iff.mp hbefore, fun h => ?_⟩
  rw [wrapHolds_iff.mpr h] at hafter
  cases hafter

end Pear
