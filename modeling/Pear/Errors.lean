import Pear.Manifest

/-!
# Errors and the loops

How a failed request ends the loop that made it. An error of the relay client reaches the caller of
`converge_once` by three routes (`sync.rs`, `converge.rs`, `relay.rs`): mapped by
`PushError::from_relay`, flattened into an `io::Error` under context layers and classified by
`push_from_anyhow`, or wrapped as it is. The converge loop and the mirror loop (`loops.rs`,
`watch.rs`) decide whether to stop, to mirror or to retry. They agree with what an error is exactly
when it is no `NotFound`, and no `Fatal` off the direct route (`errors_handled_iff`).
-/

namespace Pear

/-! ## Error values -/

/-- An error of the relay client (`RelayError`). -/
inductive ClientError where
  | headConflict (currentSeq : Nat)
  | notFound (what : Text)
  | fatal (what : Text)
  | http (status : Nat) (body : Text)
  | transport (why : Text)
deriving DecidableEq

/-- A Rust error value, as far as `source` and `downcast_ref` see it. -/
inductive StdError where
  | relay (e : ClientError)
  /-- `io::Error::other` -/
  | ioOther (inner : StdError)
  /-- An `io::Error` of the system. -/
  | ioOs (code : Nat)
  /-- A context layer of `anyhow`. -/
  | context (what : Text) (inner : StdError)
  /-- `StopWatching` -/
  | stopWatching (why : StdError)
  | other (what : Text)
deriving DecidableEq

namespace StdError

/-- An error and what the loop over `Error::source` finds below it. The source of an `io::Error` is the
source of what it holds. -/
def chain : StdError → List StdError
  | .ioOther inner => .ioOther inner :: inner.chain.tail
  | .context what inner => .context what inner :: inner.chain
  | e => [e]

/-- `anyhow`'s `downcast_ref::<RelayError>`, which sees through context layers and nothing else. -/
def downcastRelay : StdError → Option ClientError
  | .relay e => some e
  | .context _ inner => inner.downcastRelay
  | _ => none

/-- Its `downcast::<StopWatching>`. -/
def downcastStop : StdError → Option StdError
  | .stopWatching why => some why
  | .context _ inner => inner.downcastStop
  | _ => none

/-- An error under context layers, the outermost first. -/
def withContext (contexts : List Text) (e : StdError) : StdError := contexts.foldr .context e

end StdError

/-- Why a cycle of a writer failed (`PushError`). -/
inductive PushError where
  | headConflict (currentSeq : Nat)
  | forbidden (why : Text)
  | client (why : Text)
  | other (e : StdError)
deriving DecidableEq

/-- The class of a push error. -/
inductive PushClass where
  | headConflict
  | forbidden
  | client
  | other
deriving DecidableEq

def PushError.class : PushError → PushClass
  | .headConflict _ => .headConflict
  | .forbidden _ => .forbidden
  | .client _ => .client
  | .other _ => .other

/-! ## The classifications -/

/-- "relay rejected the request (HTTP {status}): {body}" -/
def rejected (status : Nat) (body : Text) : PushError :=
  .client ("relay rejected the request (HTTP ".toList ++ (toString status).toList ++
    "): ".toList ++ body)

/-- `PushError::from_relay` -/
def PushError.fromRelay : ClientError → PushError
  | .headConflict currentSeq => .headConflict currentSeq
  | .fatal msg => .client msg
  | .http status body =>
    if status = 403 then .forbidden body
    else if status = 400 ∨ status = 401 ∨ status = 404 then rejected status body
    else .other (.relay (.http status body))
  | e => .other (.relay e)

/-- `push_from_relay_ref` -/
def pushFromRelayRef : ClientError → Option PushError
  | .headConflict currentSeq => some (.headConflict currentSeq)
  | .http status body =>
    if status = 403 then some (.forbidden body)
    else if status = 400 ∨ status = 401 ∨ status = 404 then some (rejected status body)
    else none
  | _ => none

/-- `classify` of `push_from_anyhow`: a relay error, or an `io::Error` that holds one. -/
def classify : StdError → Option PushError
  | .relay e => pushFromRelayRef e
  | .ioOther (.relay e) => pushFromRelayRef e
  | _ => none

/-- `push_from_anyhow` -/
def pushFromAnyhow (e : StdError) : PushError := (e.chain.findSome? classify).getD (.other e)

/-- How a relay error comes to the caller of `converge_once`. -/
inductive Route where
  /-- A request of the cycle itself, through `PushError::from_relay`. -/
  | direct
  /-- A request of the chunk sink, under context layers. -/
  | chunkSink (contexts : List Text)
  /-- `PushError::Other(anyhow::Error::new(…))` -/
  | wrapped

/-- Only a `Fatal` is wrapped as it is. -/
def Route.Carries (e : ClientError) : Route → Prop
  | .wrapped => ∃ what, e = .fatal what
  | _ => True

/-- The push error a route makes of a relay error. -/
def Route.push (e : ClientError) : Route → PushError
  | .direct => .fromRelay e
  | .chunkSink contexts => pushFromAnyhow (.withContext contexts (.ioOther (.relay e)))
  | .wrapped => .other (.relay e)

/-! ## The loops -/

/-- What a loop does after a failed cycle. -/
inductive LoopAction where
  /-- `control.fatal` -/
  | stop
  /-- The run goes on as a read-only mirror. -/
  | mirror
  /-- The watch loop returns an error. -/
  | leave
  | retry
deriving DecidableEq

/-- The watch loop on a cycle's error (`watch_loop_with_kicks`), with the flag its caller set. -/
def watchLoop (demoted : Bool) (e : StdError) : LoopAction :=
  match e.downcastStop with
  | some _ => if demoted then .mirror else .leave
  | none => .retry

/-- The converge loop on a failed cycle (`converge`). -/
def convergeLoop : PushError → LoopAction
  | .forbidden _ => watchLoop true (.stopWatching (.other "no writer role on workspace".toList))
  | .client _ => .stop
  | .headConflict _ => watchLoop false (.other "head conflict".toList)
  | .other e => watchLoop false e

/-- The mirror loop on a failed pull (`mirror`). -/
def mirrorLoop (e : StdError) : LoopAction :=
  match e.downcastRelay with
  | some (.http status _) => if status = 401 ∨ status = 403 then .stop else .retry
  | some (.notFound _) | some (.fatal _) => .stop
  | _ => .retry

/-- The errors that the same request meets every time. -/
def ClientError.deterministic : ClientError → Bool
  | .fatal _ | .notFound _ => true
  | .http status _ => status = 400 || status = 401 || status = 404
  | _ => false

/-- What a loop should do: stop on a deterministic error, mirror without a writer's role, and retry
on anything else. -/
def ClientError.due (e : ClientError) : LoopAction :=
  if e.deterministic then .stop
  else match e with
    | .http status _ => if status = 403 then .mirror else .retry
    | _ => .retry

/-- The errors a mirror must not retry. -/
def ClientError.stopsMirror : ClientError → Bool
  | .fatal _ | .notFound _ => true
  | .http status _ => status = 401
  | _ => false

/-- A relay error is handled as it should be: its route gives the class the direct one gives, the
converge loop does what is due, and the mirror loop does not retry what it must not, under any
context. -/
structure Handled (e : ClientError) (r : Route) : Prop where
  class_eq : (r.push e).class = (PushError.fromRelay e).class
  converge : convergeLoop (r.push e) = e.due
  mirror : e.stopsMirror = true → ∀ contexts, mirrorLoop (.withContext contexts (.relay e)) ≠ .retry

/-! ## Under context layers -/

namespace StdError

/-- A relay error under context layers is found. -/
theorem downcastRelay_withContext (contexts : List Text) (e : ClientError) :
    (withContext contexts (.relay e)).downcastRelay = some e := by
  induction contexts with
  | nil => rfl
  | cons what contexts ih => exact ih

/-- Context layers hide no stop. -/
theorem downcastStop_withContext (contexts : List Text) (e : StdError) :
    (withContext contexts e).downcastStop = e.downcastStop := by
  induction contexts with
  | nil => rfl
  | cons what contexts ih => exact ih

end StdError

/-- **Any number of context layers is classified as none.** -/
theorem findSome_withContext (contexts : List Text) (e : StdError) :
    (StdError.withContext contexts e).chain.findSome? classify = e.chain.findSome? classify := by
  induction contexts with
  | nil => rfl
  | cons what contexts ih => exact ih

/-- What the chunk sink's errors are classified as: the layers stay around what is not recognized. -/
theorem push_chunkSink (e : ClientError) (contexts : List Text) :
    (Route.chunkSink contexts).push e =
      (pushFromRelayRef e).getD (.other (.withContext contexts (.ioOther (.relay e)))) := by
  have hchain : (StdError.ioOther (.relay e)).chain = [.ioOther (.relay e)] := rfl
  unfold Route.push pushFromAnyhow
  dsimp only
  rw [findSome_withContext, hchain, List.findSome?_singleton]
  rfl

/-- The direct classification is the other one, but for a `Fatal`. -/
theorem fromRelay_eq {e : ClientError} (he : ∀ what, e ≠ .fatal what) :
    PushError.fromRelay e = (pushFromRelayRef e).getD (.other (.relay e)) := by
  cases e with
  | fatal what => exact absurd rfl (he what)
  | headConflict | notFound | transport => rfl
  | http status body =>
    unfold pushFromRelayRef PushError.fromRelay
    dsimp only
    split
    · rfl
    split <;> rfl

/-- What a route makes of an error: the class that `push_from_relay_ref` recognizes, or a value that
holds no stop. Only a `Fatal` on the direct route is recognized by more. -/
theorem exists_push {e : ClientError} {r : Route} (hr : r.Carries e)
    (hfatal : (∃ what, e = .fatal what) → r ≠ .direct) :
    ∃ x : StdError, x.downcastStop = none ∧ r.push e = (pushFromRelayRef e).getD (.other x) := by
  cases r with
  | direct =>
    exact ⟨.relay e, rfl, fromRelay_eq fun what hwhat => hfatal ⟨what, hwhat⟩ rfl⟩
  | chunkSink contexts =>
    exact ⟨_, StdError.downcastStop_withContext contexts _, push_chunkSink e contexts⟩
  | wrapped =>
    obtain ⟨what, rfl⟩ := hr
    exact ⟨.relay (.fatal what), rfl, rfl⟩

/-! ## What the loops do -/

/-- An error of no class is retried, unless it holds a stop. -/
theorem convergeLoop_other {e : StdError} (h : e.downcastStop = none) :
    convergeLoop (.other e) = .retry := by
  simp [convergeLoop, watchLoop, h]

/-- A recognized error is handled as is due, and so is a transport error. -/
theorem convergeLoop_recognized {e : ClientError} {x : StdError} (hx : x.downcastStop = none)
    (hnotFound : ∀ what, e ≠ .notFound what) (hfatal : ∀ what, e ≠ .fatal what) :
    convergeLoop ((pushFromRelayRef e).getD (.other x)) = e.due := by
  cases e with
  | headConflict => rfl
  | transport => exact convergeLoop_other hx
  | notFound what => exact absurd rfl (hnotFound what)
  | fatal what => exact absurd rfl (hfatal what)
  | http status body =>
    unfold pushFromRelayRef ClientError.due ClientError.deterministic
    dsimp only
    by_cases h403 : status = 403
    · subst h403
      rfl
    by_cases hdet : status = 400 ∨ status = 401 ∨ status = 404
    · rw [if_neg h403, if_pos hdet, if_pos (by simpa [or_assoc] using hdet)]
      rfl
    · rw [if_neg h403, if_neg hdet, if_neg (by simpa [or_assoc] using hdet), if_neg h403]
      exact convergeLoop_other hx

/-- The mirror loop stops on what it must not retry, under any context. -/
theorem mirrorLoop_stops {e : ClientError} (h : e.stopsMirror = true) (contexts : List Text) :
    mirrorLoop (.withContext contexts (.relay e)) = .stop := by
  unfold mirrorLoop
  rw [StdError.downcastRelay_withContext]
  cases e with
  | fatal | notFound => rfl
  | headConflict | transport => cases h
  | http status body =>
    have h401 : status = 401 := of_decide_eq_true h
    simp [h401]

/-- **Which errors are handled.** A `NotFound` is retried on every route, and a `Fatal` on every
route but the direct one. -/
theorem errors_handled_iff (e : ClientError) (r : Route) (hr : r.Carries e) :
    Handled e r ↔ (∀ what, e ≠ .notFound what) ∧ ((∃ what, e = .fatal what) → r = .direct) := by
  have hmirror : e.stopsMirror = true → ∀ contexts,
      mirrorLoop (.withContext contexts (.relay e)) ≠ .retry := by
    intro h contexts
    rw [mirrorLoop_stops h contexts]
    exact LoopAction.noConfusion
  -- An error that nothing recognizes is retried.
  have hretry : pushFromRelayRef e = none → ((∃ what, e = .fatal what) → r ≠ .direct) →
      convergeLoop (r.push e) = .retry := by
    intro hnone hfatal
    obtain ⟨x, hx, hpush⟩ := exists_push hr hfatal
    rw [hpush, hnone]
    exact convergeLoop_other hx
  constructor
  · intro h
    refine ⟨?_, ?_⟩
    · rintro what rfl
      have hstop := h.converge
      rw [hretry rfl fun ⟨_, hwhat⟩ => nomatch hwhat] at hstop
      cases hstop
    · rintro ⟨what, rfl⟩
      by_contra hdirect
      have hstop := h.converge
      rw [hretry rfl fun _ => hdirect] at hstop
      cases hstop
  · rintro ⟨hnotFound, hdirect⟩
    by_cases hfatal : ∃ what, e = .fatal what
    · obtain rfl := hdirect hfatal
      obtain ⟨what, rfl⟩ := hfatal
      exact ⟨rfl, rfl, hmirror⟩
    · have hnot : ∀ what, e ≠ .fatal what := fun what hwhat => hfatal ⟨what, hwhat⟩
      obtain ⟨x, hx, hpush⟩ := exists_push hr fun h => absurd h hfatal
      refine ⟨?_, by rw [hpush]; exact convergeLoop_recognized hx hnotFound hnot, hmirror⟩
      rw [hpush, fromRelay_eq hnot]
      cases pushFromRelayRef e <;> rfl

/-- A revoked token under two context layers stops the loops. -/
theorem errors_handled_iff_unauthorized :
    Handled (.http 401 "missing or invalid bearer token".toList)
      (.chunkSink ["chunk a".toList, "scan".toList]) :=
  (errors_handled_iff (.http 401 _) (.chunkSink _) trivial).mpr ⟨by simp, by simp⟩

/-- **A workspace that is gone is polled forever**: the `NotFound` of `get_workspace`. -/
theorem notFound_not_handled : ¬ Handled (.notFound "workspace w".toList) .direct := by
  intro h
  exact absurd h.converge (by decide)

/-! ## The remote manifest -/

/-- A head as the relay answers it. -/
structure HeadInfo where
  e2e : Bool
  manifest : Manifest
  manifestEnc : Option Text

/-- The `fatal` closure of `remote_manifest`. -/
def fatalOther (msg : Text) : PushError := .other (.relay (.fatal msg))

/-- `remote_manifest`. The keyring is its `decrypt_manifest`, and `render` the text of a refusal of
`validate`. -/
def remoteManifest (keyring : Option (Text → Except Text Manifest)) (render : ManifestError → Text)
    (head : Option HeadInfo) (id : Text) : Except PushError Manifest :=
  match head with
  | none => .ok (.new id)
  | some head => do
    let manifest ← match head.e2e, keyring with
      | true, some decrypt =>
        match head.manifestEnc with
        | none => throw (fatalOther "the relay's e2e head carries no manifest_enc".toList)
        | some enc => (decrypt enc).mapError fun e =>
            fatalOther ("cannot decrypt the relay's e2e head: ".toList ++ e)
      | false, none => pure head.manifest
      | true, none => throw (fatalOther ("workspace ".toList ++ id ++
          " is end-to-end encrypted; this device needs its workspace key".toList))
      | false, some _ => throw (fatalOther ("workspace ".toList ++ id ++
          " is not end-to-end encrypted; refusing to converge it with a workspace key".toList))
    (validate manifest).mapError fun e =>
      fatalOther ("invalid manifest from relay: ".toList ++ render e)
    refuseIf (manifest.workspaceId ≠ id) (fatalOther ("relay head belongs to workspace ".toList ++
      manifest.workspaceId ++ ", this device is ".toList ++ id))
    return manifest

/-- What a device takes of a head: the plain manifest without a keyring, the sealed one with it. -/
def HeadInfo.Gives (head : HeadInfo) (m : Manifest) : Option (Text → Except Text Manifest) → Prop
  | none => head.e2e = false ∧ head.manifest = m
  | some decrypt => head.e2e = true ∧ ∃ enc, head.manifestEnc = some enc ∧ decrypt enc = .ok m

section
variable {keyring : Option (Text → Except Text Manifest)} {render : ManifestError → Text}
  {head : HeadInfo} {id : Text} {m : Manifest} {r : Except PushError Manifest}

theorem HeadInfo.Gives.unique {m' : Manifest} (h : head.Gives m keyring) (h' : head.Gives m' keyring) :
    m = m' := by
  cases keyring with
  | none => exact h.2.symm.trans h'.2
  | some decrypt =>
    obtain ⟨-, enc, henc, hm⟩ := h
    obtain ⟨-, enc', henc', hm'⟩ := h'
    obtain rfl := Option.some.inj (henc.symm.trans henc')
    exact Except.ok.inj (hm.symm.trans hm')

/-- The checks on a manifest that was read: it is accepted as it is, or refused with a `Fatal`. -/
theorem checkRemote (h : (do
      (validate m).mapError fun e => fatalOther ("invalid manifest from relay: ".toList ++ render e)
      refuseIf (m.workspaceId ≠ id) (fatalOther ("relay head belongs to workspace ".toList ++
        m.workspaceId ++ ", this device is ".toList ++ id))
      return m : Except PushError Manifest) = r) :
    validate m = .ok () ∧ m.workspaceId = id ∧ r = .ok m ∨
      ¬ (validate m = .ok () ∧ m.workspaceId = id) ∧ ∃ msg, r = .error (fatalOther msg) := by
  cases hv : validate m with
  | error err =>
    rw [hv] at h
    exact .inr ⟨fun hok => (by cases hok.1), _, h.symm⟩
  | ok u =>
    rw [hv] at h
    by_cases hid : m.workspaceId = id
    · rw [refuseIf, if_neg (not_not_intro hid)] at h
      exact .inl ⟨rfl, hid, h.symm⟩
    · rw [refuseIf, if_pos hid] at h
      exact .inr ⟨fun hok => hid hok.2, _, h.symm⟩

/-- A head's manifest is read and then checked, or the head is refused with a `Fatal`. -/
theorem remoteManifest_some (h : remoteManifest keyring render (some head) id = r) :
    (∃ m, head.Gives m keyring ∧
      (validate m = .ok () ∧ m.workspaceId = id ∧ r = .ok m ∨
        ¬ (validate m = .ok () ∧ m.workspaceId = id) ∧ ∃ msg, r = .error (fatalOther msg))) ∨
      (∀ m, ¬ head.Gives m keyring) ∧ ∃ msg, r = .error (fatalOther msg) := by
  unfold remoteManifest at h
  dsimp only at h
  cases he2e : head.e2e with
  | false =>
    rw [he2e] at h
    cases keyring with
    | none => exact .inl ⟨_, ⟨he2e, rfl⟩, checkRemote h⟩
    | some decrypt => exact .inr ⟨fun m hm => (by rw [hm.1] at he2e; cases he2e), _, h.symm⟩
  | true =>
    rw [he2e] at h
    cases keyring with
    | none => exact .inr ⟨fun m hm => (by rw [hm.1] at he2e; cases he2e), _, h.symm⟩
    | some decrypt =>
      cases henc : head.manifestEnc with
      | none =>
        rw [henc] at h
        refine .inr ⟨?_, _, h.symm⟩
        rintro m ⟨-, enc, henc', -⟩
        rw [henc'] at henc
        cases henc
      | some enc =>
        rw [henc] at h
        dsimp only at h
        cases hd : decrypt enc with
        | error why =>
          rw [hd] at h
          refine .inr ⟨?_, _, h.symm⟩
          rintro m ⟨-, enc', henc', hm⟩
          obtain rfl := Option.some.inj (henc.symm.trans henc')
          rw [hd] at hm
          cases hm
        | ok m =>
          rw [hd] at h
          exact .inl ⟨m, ⟨he2e, enc, henc, hd⟩, checkRemote h⟩

end

/-- **What a converge takes of a head.** It merges a valid manifest of its own workspace, the plain one
without a keyring and the decrypted one with it, and any other head is refused. A refusal is a `Fatal`
on the wrapped route, so the converge loop retries it where the mirror loop stops. -/
theorem remote_manifest_accepts_iff (keyring : Option (Text → Except Text Manifest))
    (render : ManifestError → Text) (head : Option HeadInfo) (id : Text) :
    (∀ m, remoteManifest keyring render head id = .ok m ↔
      head = none ∧ m = .new id ∨
        ∃ h, head = some h ∧ h.Gives m keyring ∧ validate m = .ok () ∧ m.workspaceId = id) ∧
    ∀ e, remoteManifest keyring render head id = .error e → ∃ msg,
      e = Route.wrapped.push (.fatal msg) ∧ convergeLoop e = .retry ∧
        ∀ contexts, mirrorLoop (.withContext contexts (.relay (.fatal msg))) = .stop := by
  cases head with
  | none =>
    refine ⟨fun m => ⟨?_, ?_⟩, fun e he => (by cases he)⟩
    · intro h
      cases h
      exact .inl ⟨rfl, rfl⟩
    · rintro (⟨-, rfl⟩ | ⟨h, hh, -⟩)
      · rfl
      · cases hh
  | some head =>
    have hsome := remoteManifest_some (rfl : remoteManifest keyring render (some head) id = _)
    refine ⟨fun m => ⟨fun h => ?_, ?_⟩, fun e he => ?_⟩
    · rw [h] at hsome
      rcases hsome with ⟨m', hgives, ⟨hvalid, hid, hm⟩ | ⟨-, msg, herr⟩⟩ | ⟨-, msg, herr⟩
      · obtain rfl := Except.ok.inj hm
        exact .inr ⟨head, rfl, hgives, hvalid, hid⟩
      · cases herr
      · cases herr
    · rintro (⟨hnone, -⟩ | ⟨h, hh, hgives, hok⟩)
      · cases hnone
      · obtain rfl := Option.some.inj hh
        rcases hsome with ⟨m', hgives', ⟨-, -, hm⟩ | ⟨hbad, -⟩⟩ | ⟨hnone, -⟩
        · rw [hm, hgives.unique hgives']
        · exact absurd (hgives.unique hgives' ▸ hok) hbad
        · exact absurd hgives (hnone m)
    · have hfatal : ∃ msg, e = fatalOther msg := by
        rw [he] at hsome
        rcases hsome with ⟨m', -, ⟨-, -, hm⟩ | ⟨-, msg, herr⟩⟩ | ⟨-, msg, herr⟩
        · cases hm
        · exact ⟨msg, Except.error.inj herr⟩
        · exact ⟨msg, Except.error.inj herr⟩
      obtain ⟨msg, rfl⟩ := hfatal
      exact ⟨msg, rfl, convergeLoop_other rfl, mirrorLoop_stops rfl⟩

end Pear
