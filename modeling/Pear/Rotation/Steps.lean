import Pear.Rotation.Fleet

/-!
# What a pass does at each call

A pass is proved once against the part of the world that is its device's own, which nobody else
touches: at every call the ring in memory is the one in the file, or the one about to be stored
(`Does`). The rules are those of triples over the device (`Triple`). From it come the steps of a
fleet (`Sound.tick`), which is all that the results about fleets use of the programs.
-/

namespace Pear

open Pear.Lib

section
variable {D K : Type} [DecidableEq K] (edVerify : Bytes → Bytes → Bytes → Bool)

/-- A member whose bundle passes every check. -/
def WrapsTo (pins : KnownKeys) (m : MemberInfo) : Prop :=
  ∃ x25519 firstSight, classifyMember edVerify pins m = some (.wrap x25519 firstSight)

/-- What a call of a pass finds on its device. -/
def Does (v : KeyDevice K) : PassOp K → Prop
  | .storeKeyring r => (v.session.wrapped = [] ∧ v.session.recorded = false) ∧
    ((v.file = .missing ∧ (v.session.key = none ∧ r ∈ v.session.read ∨
      ∃ key, v.session.key = some key ∧ r = .fromLegacy key)) ∨
    ∃ r₀, v.file = .ring r₀ ∧ (v.session.key = none ∧ (∃ copy ∈ v.session.read,
      r = (r₀.unionFrom copy).1) ∨ ∃ key, v.session.key = some key ∧ r = r₀.rotate key))
  | .putWrappedKey user wrap => v.file = .ring wrap.ring ∧ v.session.recorded = false ∧
    (∀ g, g ∈ wrap.ring.keys ↔ (∃ r ∈ v.session.read, g ∈ r.keys) ∨ g ∈ v.session.minted) ∧
    ∃ members ∈ v.session.lists, user ∈ members.map (·.user)
  | .deleteWrappedKey user => ∃ members ∈ v.session.lists, user ∉ members.map (·.user)
  | .storeWrappedMembers users => (∃ r, v.file = .ring r) ∧
    (∀ user, user ∈ users ↔ user ∈ v.session.wrapped) ∧
    (∃ members ∈ v.session.lists, ∀ m ∈ members, WrapsTo edVerify v.pins m →
      m.user ∈ v.session.wrapped) ∧
    (v.session.rotated = false → ∃ members ∈ v.session.lists,
      ∀ user ∈ v.record.getD ∅, user ∈ members.map (·.user))
  | _ => True

/-- The contract of a device's pass: nobody else touches the device. -/
def passContract (d : D) : Contract (KeyWorld D K) (PassOp K) where
  assume _ _ := True
  rely w w' := w'.devices d = w.devices d ∧ w'.relay.team = w.relay.team
  guarantee op w _ := Does edVerify (w.devices d) op
  rely_refl _ := ⟨rfl, rfl⟩
  rely_trans h h' := ⟨h'.1.trans h.1, h'.2.trans h.2⟩

end

/-! ## Triples over a device -/

section
variable {D K : Type} [DecidableEq D] [DecidableEq K] (entropy : Nat → K)
  (edVerify : Bytes → Bytes → Bytes → Bool) (d : D) (team : Option Text)

/-- From a device that meets `P`, a pass does what it does, and its value and device meet `Q`. -/
def Triple {α : Type} (P : KeyDevice K → Prop) (p : Pass K α) (Q : α → KeyDevice K → Prop) : Prop :=
  ∀ w : KeyWorld D K, w.relay.team = team → P (w.devices d) →
    wp (keyMachine entropy d) (passContract edVerify d)
      (fun a w => Q a (w.devices d) ∧ w.relay.team = team) p w

variable {entropy edVerify d team} {α β : Type} {P P' : KeyDevice K → Prop}
  {Q Q' : α → KeyDevice K → Prop}

omit [DecidableEq K] in
theorem effect_devices (op : PassOp K) (w : KeyWorld D K) :
    (effect entropy d op w).devices d = (w.devices d).after entropy w.relay w.drawn op :=
  Function.update_self d _ _

omit [DecidableEq K] in
theorem effect_team (op : PassOp K) (w : KeyWorld D K) :
    (effect entropy d op w).relay.team = w.relay.team := by
  show (w.relay.after op).team = _
  cases op <;> rfl

/-- An answer that `?` does not pass. -/
def Refused : (op : PassOp K) → op.Ret → Prop
  | .random, _ => False
  | .loadKeyring, r | .getWorkspace, r | .teamMembers _, r | .loadWrappedMembers, r
  | .localUserKeypair _, r | .getMyWrappedKey, r | .loadKnownKeys, r | .storeKeyring _, r
  | .storeWrappedMembers _, r | .putWrappedKey _ _, r | .deleteWrappedKey _, r
  | .saveKnownKeys _, r => r = none

omit [DecidableEq K] in
/-- A call is done, or it is refused, with no effect, with its effect, or with a torn file. -/
theorem outcome_cases {op : PassOp K} {w : KeyWorld D K} {out : op.Ret × KeyWorld D K}
    (h : Outcome (keyMachine entropy d) op w out) :
    out = (answer entropy d w op, effect entropy d op w) ∨
    (Refused op out.1 ∧ (out.2 = w ∨ out.2 = effect entropy d op w ∨
      ∃ r, op = .storeKeyring r ∧ out.2 = tear d w)) := by
  cases h with
  | exec => exact .inl rfl
  | fault f =>
    cases op with
    | random => exact .inl rfl
    | storeKeyring r =>
      cases f with
      | lost => exact .inr ⟨rfl, .inl rfl⟩
      | unacked => exact .inr ⟨rfl, .inr (.inl rfl)⟩
      | torn => exact .inr ⟨rfl, .inr (.inr ⟨r, rfl, rfl⟩)⟩
    | putWrappedKey | deleteWrappedKey | storeWrappedMembers | saveKnownKeys =>
      cases f with
      | lost | torn => exact .inr ⟨rfl, .inl rfl⟩
      | unacked => exact .inr ⟨rfl, .inr (.inl rfl)⟩
    | loadKeyring | getWorkspace | teamMembers | loadWrappedMembers | localUserKeypair
    | getMyWrappedKey | loadKnownKeys => exact .inr ⟨rfl, .inl rfl⟩

omit [DecidableEq K] in
/-- A failure that tears nothing has no effect, or its effect. -/
theorem fail_untorn {f : KeyFault} {w : KeyWorld D K} {op : PassOp K} (hf : f ≠ .torn) :
    (fail entropy d f w op).2 = w ∨ (fail entropy d f w op).2 = effect entropy d op w := by
  cases f with
  | torn => exact absurd rfl hf
  | lost => cases op <;> first | exact .inl rfl | exact .inr rfl
  | unacked => cases op <;> first | exact .inr rfl | exact .inl rfl

/-- A stronger precondition and a weaker postcondition. -/
theorem Triple.conseq {p : Pass K α} (h : Triple entropy edVerify d team P p Q)
    (hP : ∀ v, P' v → P v) (hQ : ∀ a v, Q a v → Q' a v) :
    Triple entropy edVerify d team P' p Q' :=
  fun w ht hp => wp_mono (h w ht (hP _ hp)) fun a _ hq => ⟨hQ a _ hq.1, hq.2⟩

/-- Sequencing. -/
theorem Triple.bind {p : Pass K α} {f : α → Pass K β} {R : β → KeyDevice K → Prop}
    (h : Triple entropy edVerify d team P p Q)
    (hf : ∀ a, Triple entropy edVerify d team (Q a) (f a) R) :
    Triple entropy edVerify d team P (p >>= f) R :=
  fun w ht hp => wp_bind (wp_mono (h w ht hp) fun a w hq => hf a w hq.2 hq.1)

/-- A value. -/
theorem Triple.done {a : α} (h : ∀ v, P v → Q a v) :
    Triple entropy edVerify d team P (.done a) Q :=
  fun _ ht hp _ hr => ⟨h _ (hr.1 ▸ hp), hr.2.trans ht⟩

/-- A failure. -/
theorem Triple.fail {e : PassError} : Triple entropy edVerify d team P (.fail e : Pass K α) Q :=
  fun _ _ _ => trivial

/-- A precondition of which a fact is known. -/
theorem Triple.assume {F : Prop} {p : Pass K α} (hP : ∀ v, P v → F)
    (h : F → Triple entropy edVerify d team P p Q) : Triple entropy edVerify d team P p Q :=
  fun w ht hp => h (hP _ hp) w ht hp

/-- Drawing a key. -/
theorem Triple.random {f : K → α} (h : ∀ v relay drawn, P v →
      Q (f (entropy drawn)) (v.after entropy relay drawn .random)) :
    Triple entropy edVerify d team P (.call .random fun key => .done (f key)) Q := by
  intro w ht hp w' hr _ r hcome
  refine ⟨trivial, ?_⟩
  obtain rfl | ⟨hrefused, -⟩ := outcome_cases hcome
  · intro w'' hr'
    rw [hr'.1, hr'.2, effect_devices, effect_team]
    exact ⟨h _ _ _ (hr.1 ▸ hp), hr.2.trans ht⟩
  · exact hrefused.elim

/-- A look at the keypairs, which leaves the device as it is. -/
theorem Triple.keypair {name : Text} {k : Option Bytes → Pass K α}
    (h : ∀ r, Triple entropy edVerify d team P (k r) Q) :
    Triple entropy edVerify d team P (.call (.localUserKeypair name) k) Q := by
  intro w ht hp w' hr _ r hcome
  refine ⟨trivial, ?_⟩
  obtain rfl | ⟨-, hw | hw | ⟨_, hop, -⟩⟩ := outcome_cases hcome
  · refine h _ _ (hr.2.trans ht) ?_
    rw [effect_devices]
    exact hr.1 ▸ hp
  · exact h _ _ (hw ▸ hr.2.trans ht) (hw ▸ hr.1 ▸ hp)
  · refine h _ _ (hw ▸ hr.2.trans ht) ?_
    rw [hw, effect_devices]
    exact hr.1 ▸ hp
  · cases hop

/-- A call with `?`. -/
theorem Triple.need {op : PassOp K} {out : op.Ret → Option α}
    (hout : ∀ r, Refused op r → out r = none) (hdoes : ∀ v, P v → Does edVerify v op)
    (hdone : ∀ w : KeyWorld D K, w.relay.team = team → P (w.devices d) →
      ∀ a, out (answer entropy d w op) = some a →
        Q a ((w.devices d).after entropy w.relay w.drawn op)) :
    Triple entropy edVerify d team P (need op out) Q := by
  intro w ht hp
  refine wp_need fun w' hr _ r hcome => ?_
  have hp' : P (w'.devices d) := hr.1 ▸ hp
  refine ⟨hdoes _ hp', fun a ha w'' hr' => ?_⟩
  rcases outcome_cases hcome with rfl | ⟨hrefused, -⟩
  · rw [hr'.1, hr'.2, effect_devices, effect_team]
    exact ⟨hdone w' (hr.2.trans ht) hp' a ha, hr.2.trans ht⟩
  · rw [hout _ hrefused] at ha
    cases ha

/-- A loop that carries a value. -/
theorem Triple.foldlM {γ σ : Type} {f : σ → γ → Pass K σ} {I : List γ → σ → KeyDevice K → Prop}
    (h : ∀ x xs s, Triple entropy edVerify d team (I (x :: xs) s) (f s x) (I xs)) {xs : List γ}
    {s : σ} : Triple entropy edVerify d team (I xs s) (xs.foldlM f s) (I []) := by
  intro w ht hp
  refine wp_foldlM (I := fun xs s w => I xs s (w.devices d) ∧ w.relay.team = team) ?_
    (fun x xs s w hi => h x xs s w hi.2 hi.1) ⟨hp, ht⟩
  rintro xs s w w' hi ⟨hv, ht⟩
  exact ⟨hv ▸ hi.1, ht.trans hi.2⟩

/-- A loop over calls that each keep `P`. -/
theorem Triple.forM {γ : Type} {f : γ → Pass K PUnit} : ∀ {xs : List γ},
    (∀ x ∈ xs, Triple entropy edVerify d team P (f x) fun _ => P) →
    Triple entropy edVerify d team P (forM xs f) fun _ => P
  | [], _ => .done fun _ hp => hp
  | x :: _, h => .bind (h x List.mem_cons_self) fun _ =>
    Triple.forM fun y hy => h y (List.mem_cons_of_mem _ hy)

end

/-! ## The ring of a pass -/

section
variable {K : Type}

/-- The ring in memory is the one in the file: every ring that was read, and what was minted. -/
structure InFile (ring : Keyring K) (v : KeyDevice K) : Prop where
  file : v.file = .ring ring
  stored : v.session.key = none
  recorded : v.session.recorded = false
  known : ∀ g, g ∈ ring.keys ↔ (∃ r ∈ v.session.read, g ∈ r.keys) ∨ g ∈ v.session.minted

/-- A pass over this ring, after its first look at the team. -/
structure InPass (ring : Keyring K) (rotated : Bool) (members : List MemberInfo)
    (record : Option Users) (wrapped : List Text) (v : KeyDevice K) : Prop
    extends InFile ring v where
  rotated : v.session.rotated = rotated
  served : members ∈ v.session.lists
  record : v.record = record
  wrapped : v.session.wrapped = wrapped

/-- A pass that has opened its ring. -/
structure Opened (ring : Keyring K) (v : KeyDevice K) : Prop extends InFile ring v where
  rotated : v.session.rotated = false
  wrapped : v.session.wrapped = []

end

section
variable {D K : Type} [DecidableEq D] [DecidableEq K] {entropy : Nat → K}
  {edVerify : Bytes → Bytes → Bytes → Bool} {sealable : Bytes → Bool} {d : D} {team : Option Text}
  {ring : Keyring K} {members : List MemberInfo} {record : Option Users} {name : Option Text}

/-- A look at the ring in the file. -/
theorem loadKeyring_triple :
    Triple entropy edVerify d team (fun v : KeyDevice K => v.session = {}) (need .loadKeyring id)
      fun r v => match r with
        | some ring => Opened ring v
        | none => v.file = .missing ∧ v.session = {} := by
  refine .need (fun _ h => h) (fun _ _ => trivial) fun w ht hp a ha => ?_
  dsimp only [answer, id] at ha
  dsimp only [KeyDevice.after, Session.after]
  cases hfile : (w.devices d).file with
  | missing =>
    rw [hfile] at ha
    cases ha
    exact ⟨rfl, hp⟩
  | torn =>
    rw [hfile] at ha
    cases ha
  | ring r =>
    rw [hfile] at ha
    dsimp only at ha
    split at ha
    · cases ha
      refine ⟨⟨rfl, ?_, ?_, fun g => ?_⟩, ?_, ?_⟩ <;> simp [hp]
    · cases ha

/-- The device before it has any ring. -/
def NoRing (v : KeyDevice K) : Prop := v.file = .missing ∧ v.session = {}

omit [DecidableEq K] in
theorem unwrapKeyring_eq_some {x25519 : Bytes} {wrap : Wrap K}
    (h : unwrapKeyring x25519 wrap = some ring) : ring = wrap.ring := by
  unfold unwrapKeyring at h
  split at h
  · exact (Option.some.inj h).symm
  · cases h

/-- The own wrap, unwrapped. -/
theorem fetchKeyring_triple :
    Triple entropy edVerify d team NoRing (fetchKeyring name) fun ring v =>
      v.file = .missing ∧ v.session = { read := [ring] } := by
  cases name with
  | none => exact .fail
  | some name =>
    refine .bind (Q := fun _ => NoRing) (.need (fun _ h => h) (fun _ _ => trivial)
      fun w ht hp a ha => hp) fun x25519 => .bind (Q := fun r v => r.elim (NoRing v) fun wrap =>
        v.file = .missing ∧ v.session = { read := [wrap.ring] }) ?_ fun r => ?_
    · refine .need (fun _ h => h) (fun _ _ => trivial) fun w ht hp a ha => ?_
      dsimp only [answer, id] at ha
      dsimp only [NoRing, KeyDevice.after, Session.after]
      rw [Option.some.inj ha]
      cases a with
      | none => exact hp
      | some wrap => exact ⟨hp.1, by rw [hp.2]⟩
    · cases r with
      | none => exact .fail
      | some wrap =>
        dsimp only
        cases hring : unwrapKeyring x25519 wrap with
        | none => exact .fail
        | some ring =>
          refine .done fun v hv => ?_
          rw [unwrapKeyring_eq_some hring]
          exact hv

/-- A ring that is stored for the first time. -/
theorem storeFirst_triple :
    Triple entropy edVerify d team (fun v : KeyDevice K => v.file = .missing ∧
        (v.session = { read := [ring] } ∨
          ∃ key, ring = .fromLegacy key ∧ v.session = { key := some key }))
      (need (.storeKeyring ring) id) fun _ => Opened ring := by
  refine .need (fun _ h => h) (fun v hv => ?_) fun w ht hp a ha => ?_
  · obtain ⟨hfile, hread | ⟨key, hring, hkey⟩⟩ := hv
    · exact ⟨by rw [hread]; exact ⟨rfl, rfl⟩,
        .inl ⟨hfile, .inl ⟨by rw [hread], by rw [hread]; exact List.mem_cons_self⟩⟩⟩
    · exact ⟨by rw [hkey]; exact ⟨rfl, rfl⟩, .inl ⟨hfile, .inr ⟨key, by rw [hkey], hring⟩⟩⟩
  · obtain ⟨hfile, hread | ⟨key, rfl, hkey⟩⟩ := hp
    · dsimp only [KeyDevice.after, Session.after]
      rw [hread]
      exact ⟨⟨rfl, rfl, rfl, fun g => by simp⟩, rfl, rfl⟩
    · dsimp only [KeyDevice.after, Session.after]
      rw [hkey, hfile]
      exact ⟨⟨rfl, rfl, rfl, fun g => by simp [Keyring.mem_fromLegacy, RingFile.mints]⟩, rfl, rfl⟩

/-- The ring of the loop's start. -/
theorem convergeKeyring_triple {existed : Bool} :
    Triple entropy edVerify d team (fun v : KeyDevice K => v.session = {})
      (convergeKeyring existed name) Opened := by
  have hload : Triple entropy edVerify d team (NoRing (K := K)) (need .loadKeyring id) fun r v =>
      match r with
      | some ring => Opened ring v
      | none => NoRing v :=
    loadKeyring_triple.conseq (fun _ h => h.2) fun _ _ h => h
  refine .bind loadKeyring_triple fun r => ?_
  cases r with
  | some ring => exact .done fun _ h => h
  | none =>
    cases existed with
    | true =>
      refine .bind hload fun r => ?_
      cases r with
      | some ring => exact .done fun _ h => h
      | none =>
        refine .bind fetchKeyring_triple fun ring => .bind ?_ fun _ => .done fun _ h => h
        exact storeFirst_triple.conseq (fun v hv => ⟨hv.1, .inl hv.2⟩) fun _ _ h => h
    | false =>
      refine .bind hload fun r => ?_
      cases r with
      | some ring => exact .done fun _ h => h
      | none =>
        refine .bind (Q := fun ring v => v.file = .missing ∧
          ∃ key, ring = .fromLegacy key ∧ v.session = { key := some key })
          (.random fun v relay drawn hv => ⟨hv.1, _, rfl, ?_⟩)
          fun ring => .bind ?_ fun _ => .done fun _ h => h
        · dsimp only [KeyDevice.after, Session.after]
          rw [hv.2]
        · exact storeFirst_triple.conseq (fun v hv => ⟨hv.1, .inr hv.2⟩) fun _ _ h => h

/-! ## Rotating -/

/-- A pass that has unwrapped the relay's copy of its ring. -/
structure Fetched (ring copy : Keyring K) (members : List MemberInfo) (record : Option Users)
    (v : KeyDevice K) : Prop where
  file : v.file = .ring ring
  stored : v.session.key = none
  recorded : v.session.recorded = false
  rotated : v.session.rotated = false
  served : members ∈ v.session.lists
  record : v.record = record
  wrapped : v.session.wrapped = []
  read : copy ∈ v.session.read
  known : ∀ g, (∃ r ∈ v.session.read, g ∈ r.keys) ∨ g ∈ v.session.minted ↔
    g ∈ copy.keys ∨ g ∈ ring.keys

/-- What a merge leaves: the pass as it was, or a union with the copy. -/
def RingMerged (ring : Keyring K) (members : List MemberInfo) (record : Option Users) :
    Except MergeSkip (Keyring K × List Nat) → KeyDevice K → Prop
  | .error _, v => InPass ring false members record [] v
  | .ok merged, v => ∃ copy, merged = ring.unionFrom copy ∧ Fetched ring copy members record v

theorem mergeRelayKeyring_triple :
    Triple entropy edVerify d team (InPass ring false members record [])
      (mergeRelayKeyring ring name) (RingMerged ring members record) := by
  cases name with
  | none => exact .done fun _ h => h
  | some name =>
    refine .keypair fun keypair => ?_
    cases keypair with
    | none => exact .done fun _ h => h
    | some x25519 =>
      refine .bind (Q := fun r v => r.elim (InPass ring false members record [] v) fun wrap =>
        Fetched ring wrap.ring members record v) ?_ fun r => ?_
      · refine .need (fun _ h => h) (fun _ _ => trivial) fun w ht hp a ha => ?_
        dsimp only [answer, id] at ha
        dsimp only [KeyDevice.after, Session.after]
        rw [Option.some.inj ha]
        cases a with
        | none => exact hp
        | some wrap =>
          refine ⟨hp.file, hp.stored, hp.recorded, hp.rotated, hp.served, hp.record, hp.wrapped,
            List.mem_cons_self, fun g => ?_⟩
          simp only [List.exists_mem_cons_iff, or_assoc, ← hp.known]
      · cases r with
        | none => exact .done fun _ h => h
        | some wrap =>
          dsimp only
          cases hcopy : unwrapKeyring x25519 wrap with
          | none => exact .fail
          | some copy =>
            rw [unwrapKeyring_eq_some hcopy]
            exact .done fun _ h => ⟨_, rfl, h⟩

/-- The merge before a rotation: what was taken is in the file. -/
theorem mergeFirst_triple :
    Triple entropy edVerify d team (InPass ring false members record []) (mergeFirst ring name)
      fun r => InPass r.1 false members record [] := by
  refine .bind mergeRelayKeyring_triple fun r => ?_
  cases r with
  | error why => exact .done fun _ h => h
  | ok merged =>
    obtain ⟨union, adopted⟩ := merged
    dsimp only
    split
    · refine .bind (Q := fun _ => InPass union false members record []) ?_ fun _ => .done fun _ h => h
      refine .need (fun _ h => h) (fun v hv => ?_) fun w ht hp a ha => ?_
      · obtain ⟨copy, heq, hv⟩ := hv
        exact ⟨⟨hv.wrapped, hv.recorded⟩,
          .inr ⟨ring, hv.file, .inl ⟨hv.stored, copy, hv.read, by rw [← heq]⟩⟩⟩
      · obtain ⟨copy, heq, hv⟩ := hp
        dsimp only [KeyDevice.after, Session.after]
        rw [hv.stored]
        refine ⟨⟨rfl, hv.stored, hv.recorded, fun g => ?_⟩, hv.rotated, hv.served, hv.record, hv.wrapped⟩
        rw [hv.known, ← Keyring.mem_unionFrom, ← heq]
    · rename_i hadopted
      refine .done fun v hv => ?_
      obtain ⟨copy, heq, hv⟩ := hv
      have hunion : union = ring := by
        have hkept : (ring.unionFrom copy).1 = ring := by
          refine Keyring.unionFrom_nil ?_
          rw [← heq]
          exact not_not.mp hadopted
        rwa [← heq] at hkept
      refine ⟨⟨hunion ▸ hv.file, hv.stored, hv.recorded, fun g => ?_⟩, hv.rotated, hv.served, hv.record,
        hv.wrapped⟩
      rw [hv.known, ← Keyring.mem_unionFrom, ← heq]

/-- A rotation: the ring in the file has a generation minted after the newest. -/
theorem rotateRing_triple :
    Triple entropy edVerify d team (InPass ring false members record []) (rotateRing ring name)
      fun r => InPass r.1 true members record [] := by
  refine .bind mergeFirst_triple fun r => ?_
  obtain ⟨ring, adopted, skipped⟩ := r
  refine .bind (Q := fun rotated v => v.file = .ring ring ∧ v.session.recorded = false ∧
      (∃ key, rotated = ring.rotate key ∧ v.session.key = some key) ∧
      (∀ g, g ∈ ring.keys ↔ (∃ r ∈ v.session.read, g ∈ r.keys) ∨ g ∈ v.session.minted) ∧
      members ∈ v.session.lists ∧ v.record = record ∧ v.session.wrapped = [])
    (.random fun v relay drawn hv => ⟨hv.file, hv.recorded, ⟨_, rfl, rfl⟩, hv.known, hv.served, hv.record,
      hv.wrapped⟩) fun rotated => ?_
  refine .bind (Q := fun _ => InPass rotated true members record []) ?_ fun _ => .done fun _ h => h
  refine .need (fun _ h => h) (fun v hv => ?_) fun w ht hp a ha => ?_
  · obtain ⟨hfile, hrec, ⟨key, hring, hkey⟩, -, -, -, hwrapped⟩ := hv
    exact ⟨⟨hwrapped, hrec⟩, .inr ⟨ring, hfile, .inr ⟨key, hkey, hring⟩⟩⟩
  · obtain ⟨hfile, hrec, ⟨key, hring, hkey⟩, hknown, hserved, hrecord, hwrapped⟩ := hp
    dsimp only [KeyDevice.after, Session.after]
    rw [hkey, hfile]
    refine ⟨⟨rfl, rfl, hrec, fun g => ?_⟩, Bool.or_true _, hserved, hrecord, hwrapped⟩
    rw [hring, Keyring.mem_rotate, hknown]
    simp only [RingFile.mints, List.mem_cons]
    exact or_left_comm

/-! ## Wrapping -/

/-- A member's bucket depends on its own pin alone. -/
theorem classifyMember_congr {pins pins' : KnownKeys} {m : MemberInfo}
    (h : pins[m.user]? = pins'[m.user]?) :
    classifyMember edVerify pins m = classifyMember edVerify pins' m := by
  unfold classifyMember KnownKeys.check
  rw [h]

/-- The loop over the members that were served, while `rest` remains: whoever passed the checks
before is wrapped. -/
structure Wrapping (edVerify : Bytes → Bytes → Bytes → Bool) (ring : Keyring K) (rotated : Bool)
    (members : List MemberInfo) (record : Option Users) (listed rest : List MemberInfo)
    (s : WrapState) (v : KeyDevice K) : Prop where
  phase : InPass ring rotated members record s.report.wrapped v
  atHand : listed ∈ v.session.lists
  handled : ∃ before, listed = before ++ rest ∧
    ∀ m ∈ before, WrapsTo edVerify s.pins m → m.user ∈ s.report.wrapped
  clean : s.pinsDirty = false → s.pins = v.pins

variable {rotated : Bool} {listed rest : List MemberInfo} {m : MemberInfo} {s s' : WrapState}
  {v : KeyDevice K}

omit [DecidableEq K] in
/-- A member that is not wrapped to. -/
theorem Wrapping.skip
    (h : Wrapping edVerify ring rotated members record listed (m :: rest) s v)
    (hm : ¬ WrapsTo edVerify s.pins m) (hwrapped : s'.report.wrapped = s.report.wrapped)
    (hpins : s'.pins = s.pins) (hdirty : s'.pinsDirty = s.pinsDirty) :
    Wrapping edVerify ring rotated members record listed rest s' v := by
  obtain ⟨before, hlisted, hbefore⟩ := h.handled
  refine ⟨hwrapped ▸ h.phase, h.atHand, ⟨before ++ [m], ?_, ?_⟩,
    fun hc => hpins ▸ h.clean (hdirty ▸ hc)⟩
  · rw [hlisted, List.append_assoc, List.singleton_append]
  · intro m' hm' hwraps
    rw [hpins] at hwraps
    rw [hwrapped]
    rcases List.mem_append.mp hm' with hm' | hm'
    · exact hbefore m' hm' hwraps
    · obtain rfl := List.mem_singleton.mp hm'
      exact absurd hwraps hm

omit [DecidableEq K] in
/-- A member that is wrapped to, whose pin may be new. -/
theorem Wrapping.put {relay : KeyRelay K} {drawn : Nat} {wrap : Wrap K}
    (h : Wrapping edVerify ring rotated members record listed (m :: rest) s v)
    (hwrapped : s'.report.wrapped = s.report.wrapped ++ [m.user])
    (hpins : ∀ user : Text, user ≠ m.user → s'.pins[user]? = s.pins[user]?)
    (hclean : s'.pinsDirty = false → s'.pins = v.pins) :
    Wrapping edVerify ring rotated members record listed rest s'
      (v.after entropy relay drawn (.putWrappedKey m.user wrap)) := by
  obtain ⟨before, hlisted, hbefore⟩ := h.handled
  refine ⟨⟨⟨h.phase.file, h.phase.stored, h.phase.recorded, h.phase.known⟩, h.phase.rotated, h.phase.served,
    h.phase.record, ?_⟩, h.atHand, ⟨before ++ [m], ?_, ?_⟩, hclean⟩
  · show v.session.wrapped ++ [m.user] = _
    rw [h.phase.wrapped, hwrapped]
  · rw [hlisted, List.append_assoc, List.singleton_append]
  · intro m' hm' hwraps
    rw [hwrapped]
    refine List.mem_append.mpr ?_
    by_cases huser : m'.user = m.user
    · exact .inr (by simp [huser])
    · rcases List.mem_append.mp hm' with hm' | hm'
      · refine .inl (hbefore m' hm' ?_)
        unfold WrapsTo at hwraps ⊢
        rwa [classifyMember_congr (hpins m'.user huser)] at hwraps
      · exact absurd (congrArg MemberInfo.user (List.mem_singleton.mp hm')) huser

/-- One member of the loop. -/
theorem wrapMember_triple :
    Triple entropy edVerify d team
      (Wrapping edVerify ring rotated members record listed (m :: rest) s)
      (wrapMember edVerify sealable ring s m)
      (Wrapping edVerify ring rotated members record listed rest) := by
  have hskip : ∀ {c : MemberClass}, classifyMember edVerify s.pins m = some c →
      (∀ x25519 firstSight, c ≠ .wrap x25519 firstSight) → ¬ WrapsTo edVerify s.pins m := by
    rintro c hc hne ⟨x25519, firstSight, hwrap⟩
    rw [hc] at hwrap
    exact hne _ _ (Option.some.inj hwrap)
  unfold wrapMember
  split
  · exact .fail
  · rename_i hc
    exact .done fun v hv => hv.skip (hskip hc nofun) rfl rfl rfl
  · rename_i hc
    exact .done fun v hv => hv.skip (hskip hc nofun) rfl rfl rfl
  · rename_i hc
    exact .done fun v hv => hv.skip (hskip hc nofun) rfl rfl rfl
  · rename_i hc
    exact .done fun v hv => hv.skip (hskip hc nofun) rfl rfl rfl
  · rename_i x25519 firstSight hc
    dsimp only
    split
    · refine .bind ?_ fun _ => .done fun v hv => hv
      refine .need (fun _ h => h) (fun v hv => ?_) fun w ht hp a ha => hp.put ?_ ?_ ?_
      · obtain ⟨before, hlisted, -⟩ := hv.handled
        exact ⟨hv.phase.file, hv.phase.recorded, hv.phase.known, listed, hv.atHand,
          List.mem_map_of_mem (by simp [hlisted])⟩
      · cases firstSight <;> rfl
      · intro user huser
        cases firstSight with
        | false => rfl
        | true =>
          show (s.pins.pin m.user _)[user]? = _
          rw [KnownKeys.pin, getElem?_insert_eq, if_neg (Ne.symm huser)]
      · cases firstSight with
        | false => exact hp.clean
        | true => nofun
    · exact .fail

/-- After a pass over the team, whoever passes the checks, by the pins as they are then, is
wrapped. -/
structure Covered (edVerify : Bytes → Bytes → Bytes → Bool) (ring : Keyring K) (rotated : Bool)
    (members : List MemberInfo) (record : Option Users) (report : WrapReport) (v : KeyDevice K) :
    Prop where
  phase : InPass ring rotated members record report.wrapped v
  covers : ∃ listed ∈ v.session.lists, ∀ m ∈ listed, WrapsTo edVerify v.pins m →
    m.user ∈ report.wrapped

theorem wrapMaintenance_triple {crew : Text} :
    Triple entropy edVerify d (some crew) (InPass ring rotated members record [])
      (wrapMaintenance edVerify sealable ring)
      (Covered edVerify ring rotated members record) := by
  refine .bind (Q := fun team v => team = some crew ∧ InPass ring rotated members record [] v)
    (.need (fun _ h => h) (fun _ _ => trivial) fun w ht hp a ha => ⟨?_, hp⟩) fun team? => ?_
  · rw [← ht]
    exact (Option.some.inj ha).symm
  · refine .assume (fun v hv => hv.1) ?_
    rintro rfl
    refine .bind (Q := fun pins v => pins = v.pins ∧ InPass ring rotated members record [] v)
      (.need (fun _ h => h) (fun _ _ => trivial)
        fun w ht hp a ha => ⟨(Option.some.inj ha).symm, hp.2⟩) fun pins => ?_
    refine .bind (Q := fun listed =>
        Wrapping edVerify ring rotated members record listed listed { pins := pins })
      (.need (fun _ h => h) (fun _ _ => trivial) fun w ht hp a ha => ?_) fun listed => ?_
    · obtain rfl := Option.some.inj ha
      obtain ⟨hpins, hp⟩ := hp
      exact ⟨⟨⟨hp.file, hp.stored, hp.recorded, hp.known⟩, hp.rotated, List.mem_cons_of_mem _ hp.served,
        hp.record, hp.wrapped⟩, List.mem_cons_self, ⟨[], rfl, nofun⟩, fun _ => hpins⟩
    · refine .bind (.foldlM (I := fun rest s =>
        Wrapping edVerify ring rotated members record listed rest s)
        fun m rest s => wrapMember_triple) fun s => ?_
      split
      · refine .bind (Q := fun _ => Covered edVerify ring rotated members record s.report)
          (.need (fun _ h => h) (fun _ _ => trivial) fun w ht hp a ha => ?_)
          fun _ => .done fun _ h => h
        obtain ⟨before, hlisted, hbefore⟩ := hp.handled
        rw [List.append_nil] at hlisted
        exact ⟨⟨⟨hp.phase.file, hp.phase.stored, hp.phase.recorded, hp.phase.known⟩, hp.phase.rotated,
          hp.phase.served, hp.phase.record, hp.phase.wrapped⟩, listed, hp.atHand,
          hlisted ▸ hbefore⟩
      · rename_i hdirty
        refine .done fun v hv => ⟨hv.phase, listed, hv.atHand, ?_⟩
        obtain ⟨before, hlisted, hbefore⟩ := hv.handled
        rw [List.append_nil] at hlisted
        rw [← hv.clean (Bool.eq_false_iff.mpr hdirty), hlisted]
        exact hbefore

/-! ## Passes -/

/-- A pass that has returned: its ring is in the file, and it recorded whom it wrapped, when the
workspace has a team. -/
structure Finished (team : Option Text) (r : Keyring K × RotationReport) (v : KeyDevice K) : Prop
    where
  file : v.file = .ring r.1
  recorded : team = none ∨ v.session.recorded = true

theorem rotationMaintenance_triple {force : Bool} :
    Triple entropy edVerify d team (Opened ring)
      (rotationMaintenance edVerify sealable ring name force) (Finished team) := by
  refine .bind (Q := fun answered v => answered = team ∧ Opened ring v)
    (.need (fun _ h => h) (fun _ _ => trivial) fun w ht hp a ha => ⟨?_, hp⟩) fun answered => ?_
  · rw [← ht]
    exact (Option.some.inj ha).symm
  · refine .assume (fun v hv => hv.1) ?_
    rintro rfl
    cases answered with
    | none =>
      dsimp only
      split
      · exact .fail
      · exact .done fun v hv => ⟨hv.2.file, .inl rfl⟩
    | some crew =>
      refine .bind (Q := fun members v => ∀ record, v.record = record →
          InPass ring false members record [] v)
        (.need (fun _ h => h) (fun _ _ => trivial) fun w ht hp a ha => ?_) fun members => ?_
      · obtain rfl := Option.some.inj ha
        rintro record rfl
        exact ⟨⟨hp.2.file, hp.2.stored, hp.2.recorded, hp.2.known⟩, hp.2.rotated, List.mem_cons_self, rfl,
          hp.2.wrapped⟩
      · refine .bind (Q := fun record => InPass ring false members record [])
          (.need (fun _ h => h) (fun _ _ => trivial)
            fun w ht hp a ha => hp a (Option.some.inj ha)) fun record => ?_
        dsimp only
        -- What a rotation or none leaves.
        generalize hdeparted : (record.getD ∅).toList.filter
          (fun user => !(members.map (·.user)).contains user) = departed
        have hgone : ∀ user ∈ departed, user ∉ members.map (·.user) := by
          intro user huser
          rw [← hdeparted, List.mem_filter] at huser
          simpa using huser.2
        have hnone : departed = [] → ∀ user ∈ record.getD ∅, user ∈ members.map (·.user) := by
          intro hempty user huser
          rw [hempty, List.filter_eq_nil_iff] at hdeparted
          simpa using hdeparted user (Std.ExtTreeSet.mem_toList.mpr huser)
        refine .bind (Q := fun r => InPass r.1 (force || !departed.isEmpty) members record []) ?_
          fun r => ?_
        · cases force || !departed.isEmpty with
          | true => exact rotateRing_triple
          | false => exact .done fun _ h => h
        · obtain ⟨ring, adopted, skipped⟩ := r
          refine .bind (.forM fun user huser => .need (fun _ h => h)
            (fun v hv => ⟨members, hv.served, hgone user huser⟩) fun w ht hp a ha => hp)
            fun _ => .bind wrapMaintenance_triple fun report => ?_
          refine .bind (Q := fun _ v => v.file = .ring ring ∧ v.session.recorded = true)
            (.need (fun _ h => h) (fun v hv => ?_)
              fun w ht hp a ha => ⟨hp.phase.file, rfl⟩) fun _ => .done fun v hv =>
                ⟨hv.1, .inr hv.2⟩
          refine ⟨⟨ring, hv.phase.file⟩, fun user => ?_, ?_, fun hrot => ?_⟩
          · rw [hv.phase.wrapped, Std.ExtTreeSet.mem_ofList, List.contains_iff_mem]
          · obtain ⟨listed, hlisted, hcovers⟩ := hv.covers
            exact ⟨listed, hlisted, fun m hm hw => hv.phase.wrapped ▸ hcovers m hm hw⟩
          · refine ⟨members, hv.phase.served, ?_⟩
            rw [hv.phase.record]
            refine hnone ?_
            rw [hv.phase.rotated, Bool.or_eq_false_iff] at hrot
            simpa using hrot.2

/-- A pass, from a new session. -/
theorem program_triple {kind : PassKind} :
    Triple entropy edVerify d team (fun v : KeyDevice K => v.session = {})
      (kind.program edVerify sealable name) (Finished team) := by
  cases kind with
  | converge existed => exact .bind convergeKeyring_triple fun ring => rotationMaintenance_triple
  | rekey =>
    refine .bind loadKeyring_triple fun r => ?_
    cases r with
    | none => exact .fail
    | some ring => exact rotationMaintenance_triple

/-! ## Steps of a fleet -/

variable (entropy edVerify) in
/-- Every pass under way keeps its contract. -/
def Sound (s : KeyFleet D K) : Prop :=
  ∀ d kind p, s.pass d = some (kind, p) →
    wp (keyMachine entropy d) (passContract edVerify d)
      (fun r w => Finished s.world.relay.team r (w.devices d) ∧
        w.relay.team = s.world.relay.team) p s.world

variable (entropy) in
/-- What a call of a device may leave. -/
def Touched (d : D) (op : PassOp K) (w w' : KeyWorld D K) : Prop :=
  w' = w ∨ w' = effect entropy d op w ∨ ∃ r, op = .storeKeyring r ∧ w' = tear d w

variable {s s' : KeyFleet D K} {d' : D} {w w' : KeyWorld D K} {op : PassOp K}

omit [DecidableEq K] in
theorem effect_devices_ne (h : d' ≠ d) :
    (effect entropy d op w).devices d' = w.devices d' := Function.update_of_ne h _ _

omit [DecidableEq K] in
theorem tear_devices_ne (h : d' ≠ d) : (tear d w).devices d' = w.devices d' :=
  Function.update_of_ne h _ _

omit [DecidableEq K] in
/-- A call leaves the other devices, and the team. -/
theorem Touched.frame (h : Touched entropy d op w w') :
    (∀ d', d' ≠ d → w'.devices d' = w.devices d') ∧ w'.relay.team = w.relay.team := by
  rcases h with rfl | rfl | ⟨r, rfl, rfl⟩
  · exact ⟨fun _ _ => rfl, rfl⟩
  · exact ⟨fun d' hd => effect_devices_ne hd, effect_team op w⟩
  · exact ⟨fun d' hd => tear_devices_ne hd, rfl⟩

omit [DecidableEq K] in
/-- A call leaves the members of the team. -/
theorem Touched.members_eq (h : Touched entropy d op w w') : w'.relay.members = w.relay.members := by
  rcases h with rfl | rfl | ⟨r, rfl, rfl⟩
  · rfl
  · cases op <;> rfl
  · rfl

/-- **A step of a pass**: its call does what it does, and leaves what such a call may leave. -/
theorem Sound.tick {t : Tick KeyFault Empty} (h : Sound entropy edVerify s)
    (hs : fleetStep entropy edVerify sealable s (.tick d t) = some s') :
    ∃ kind op k p w, s.pass d = some (kind, .call op k) ∧ Does edVerify (s.world.devices d) op ∧
      Touched entropy d op s.world w ∧
      s' = { s with world := w, pass := Function.update s.pass d (some (kind, p)) } ∧
      wp (keyMachine entropy d) (passContract edVerify d)
        (fun r w => Finished s.world.relay.team r (w.devices d) ∧
          w.relay.team = s.world.relay.team) p w ∧
      (t ≠ .fault .torn → w = s.world ∨ w = effect entropy d op s.world) := by
  dsimp only [fleetStep] at hs
  cases hp : s.pass d with
  | none =>
    rw [hp] at hs
    cases hs
  | some running =>
    obtain ⟨kind, p⟩ := running
    rw [hp] at hs
    obtain ⟨⟨w, p'⟩, hstep, rfl⟩ := Option.map_eq_some_iff.mp hs
    have hwp := h d kind p hp
    cases p with
    | done r | fail e => cases t <;> first | cases hstep | (rename_i a; cases a)
    | call op k =>
      have hout : ∃ out, Outcome (keyMachine entropy d) op s.world out ∧ w = out.2 ∧
          p' = k out.1 ∧
          (t ≠ .fault .torn → w = s.world ∨ w = effect entropy d op s.world) := by
        cases t with
        | go =>
          cases hstep
          exact ⟨_, .exec, rfl, rfl, fun _ => .inr rfl⟩
        | fault f =>
          cases hstep
          exact ⟨_, .fault f, rfl, rfl, fun hf => fail_untorn fun h => hf (h ▸ rfl)⟩
        | act a => cases a
      obtain ⟨out, hout, rfl, rfl, huntorn⟩ := hout
      obtain ⟨hdoes, hk⟩ := hwp _ ⟨rfl, rfl⟩ trivial out hout
      refine ⟨kind, op, k, _, _, rfl, hdoes, ?_, rfl, hk, huntorn⟩
      rcases outcome_cases hout with rfl | ⟨-, hw⟩
      · exact .inr (.inl rfl)
      · exact hw

/-- A pass that has returned has its ring in the file. -/
theorem Sound.finished {kind : PassKind} {r : Keyring K × RotationReport}
    (h : Sound entropy edVerify s) (hp : s.pass d = some (kind, .done r)) :
    Finished s.world.relay.team r (s.world.devices d) :=
  (h d kind _ hp _ ⟨rfl, rfl⟩).1

/-- Where the devices and the team are as they were, passes that are not new keep their contract. -/
theorem Sound.frame (h : Sound entropy edVerify s)
    (hworld : ∀ d, s'.world.devices d = s.world.devices d)
    (hteam : s'.world.relay.team = s.world.relay.team)
    (hpass : ∀ d kind p, s'.pass d = some (kind, p) → s.pass d = some (kind, p)) :
    Sound entropy edVerify s' := by
  intro d kind p hp
  rw [hteam]
  exact wp_rely (h d kind p (hpass d kind p hp)) ⟨hworld d, hteam⟩

omit [DecidableEq D] [DecidableEq K] in
theorem pass_of_update_none {pass : D → Option (PassKind × Pass K (Keyring K × RotationReport))}
    [DecidableEq D] {d' : D} {r : PassKind × Pass K (Keyring K × RotationReport)}
    (h : Function.update pass d none d' = some r) : pass d' = some r := by
  by_cases hd : d' = d
  · rw [hd, Function.update_self] at h
    cases h
  · rwa [Function.update_of_ne hd] at h

omit [DecidableEq K] in
theorem pass_ne_of_update_none {d' : D}
    {pass : D → Option (PassKind × Pass K (Keyring K × RotationReport))}
    (h : Function.update pass d none d' ≠ none) : pass d' ≠ none := by
  intro hnone
  by_cases hd : d' = d
  · rw [hd, Function.update_self] at h
    exact h rfl
  · rw [Function.update_of_ne hd] at h
    exact h hnone

/-- **Every step of a fleet keeps the contracts of its passes.** -/
theorem Sound.step {e : KeyEvent D} (h : Sound entropy edVerify s)
    (hs : fleetStep entropy edVerify sealable s e = some s') : Sound entropy edVerify s' := by
  cases e with
  | tick d t =>
    obtain ⟨kind, op, k, p, w, -, -, htouched, rfl, hk, -⟩ := h.tick hs
    obtain ⟨hother, hteam⟩ := htouched.frame
    intro d' kind' p' hp
    dsimp only at hp ⊢
    rw [hteam]
    by_cases hd : d' = d
    · subst hd
      rw [Function.update_self] at hp
      cases hp
      exact hk
    · rw [Function.update_of_ne hd] at hp
      exact wp_rely (h d' kind' p' hp) ⟨hother d' hd, hteam⟩
  | start d kind name =>
    dsimp only [fleetStep] at hs
    split at hs
    · cases hs
    · cases hs
      intro d' kind' p' hp
      dsimp only at hp ⊢
      by_cases hd : d' = d
      · subst hd
        rw [Function.update_self] at hp
        cases hp
        refine program_triple (s.world.renew d') rfl ?_
        simp [KeyWorld.renew]
      · rw [Function.update_of_ne hd] at hp
        exact wp_rely (h d' kind' p' hp) ⟨Function.update_of_ne hd _ _, rfl⟩
  | finish d =>
    dsimp only [fleetStep] at hs
    split at hs
    · cases hs
      exact h.frame (fun _ => rfl) rfl fun d' kind' p' hp => pass_of_update_none hp
    · cases hs
      exact h.frame (fun _ => rfl) rfl fun d' kind' p' hp => pass_of_update_none hp
    · cases hs
    · cases hs
  | stop d =>
    cases hs
    exact h.frame (fun _ => rfl) rfl fun d' kind' p' hp => pass_of_update_none hp
  | publish d =>
    obtain ⟨ring, -, rfl⟩ := Option.map_eq_some_iff.mp hs
    exact h.frame (fun _ => rfl) rfl fun _ _ _ hp => hp
  | serve members | remove user =>
    cases hs
    exact h.frame (fun _ => rfl) rfl fun _ _ _ hp => hp

end

end Pear
