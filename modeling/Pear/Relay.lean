import Pear.Manifest

/-!
# The relay's chunk pool

The pool side of the relay (`routes.rs`, `db.rs`, `gc.rs`): who may read and write a workspace, the
tables `heads`, `snapshots` and `chunk_refs`, and the pool's blobs with their modification times.
Head and snapshot commits run under the database lock and are one step (`putHead`,
`createSnapshot`). Uploads and presence checks take the lock twice or once and touch the pool
between: they are requests in flight (`Flight`) that advance step by step. The pool GC holds the
lock for its whole run, but blobs may still be stored next to its sweep.
-/

namespace Pear

/-! ## Principals and roles -/

inductive Principal where
  | admin
  | user (name : Text)
deriving DecidableEq

/-- Roles, from the least to the greatest. -/
inductive Role where
  | reader
  | writer
  | owner
deriving DecidableEq

/-- The place of a role in their order. -/
def Role.rank : Role → Nat
  | .reader => 0
  | .writer => 1
  | .owner => 2

/-- A row of `workspaces`. -/
structure RelayWorkspace where
  owner : Option Text
  teamId : Option Text
  e2e : Bool

/-- A row of `teams` with its rows of `team_members`. -/
structure Team where
  syncEnv : Bool
  members : Std.ExtTreeMap Text Role compare

/-- The tables that say who may do what. -/
structure Access where
  workspaces : Std.ExtTreeMap Text RelayWorkspace compare
  teams : Std.ExtTreeMap Text Team compare

/-- Why the relay refuses a request. The constructors carry the values the messages quote. -/
inductive RelayError where
  /-- "workspace {id} does not exist" -/
  | notFound (id : Text)
  /-- "workspace {id} requires at least the {min} role (you are {role})" -/
  | forbidden (id : Text) (min role : Role)
  /-- "missing X-Pear-Device header" -/
  | missingDevice
  /-- "device {device} must be 1-128 chars, …" -/
  | badDevice (device : Text)
  /-- "snapshot name {name} must be 1-128 chars, …" -/
  | badName (name : Text)
  /-- The workspace's flavor is not the commit's (kind `e2e_mismatch`). -/
  | e2eMismatch (e2e : Bool)
  /-- "an e2e head commit needs chunk_hashes …" -/
  | needsChunkHashes
  /-- "a plaintext head commit needs a manifest" -/
  | needsManifest
  /-- "manifest_enc is not valid base64" -/
  | notBase64
  /-- "manifest_enc decodes to {n} bytes; …" -/
  | shortManifest (n : Nat)
  /-- "manifest is not a pear manifest: …" -/
  | notAManifest
  | invalid (e : ManifestError)
  /-- "manifest workspace {ws} does not match URL workspace {id}" -/
  | wrongWorkspace (ws id : Text)
  /-- "team … forbids .env sync …: manifest contains .env* path {path}" -/
  | dotenvForbidden (path : Text)
  /-- "chunk hash {hash} is not 64 lowercase hex chars" -/
  | badHash (hash : Text)
  /-- "chunk is {n} bytes, over the {MAX_CHUNK_SIZE}-byte maximum" -/
  | tooBig (n : Nat)
  /-- "chunk body does not hash to its claimed BLAKE3" -/
  | wrongBody
  /-- "chunks/put_many accepts at most …", "chunks/missing accepts at most …" -/
  | batchTooBig
  /-- "manifest references {missing} chunk(s) not in the pool (e.g. {first})" -/
  | chunksNotInPool (missing : Nat) (first : Text)
  /-- The head moved on. -/
  | headConflict (current : Int)
deriving DecidableEq

namespace Access

/-- A user's role in a team (`member_role`). -/
def memberRole (a : Access) (team user : Text) : Option Role :=
  a.teams[team]?.bind (·.members[user]?)

/-- The admin owns everything; the creator owns the workspace; otherwise the role in its team
(`role_on`). -/
def roleOn (a : Access) (ws : RelayWorkspace) : Principal → Option Role
  | .admin => some .owner
  | .user name =>
    if ws.owner = some name then some .owner else ws.teamId.bind (a.memberRole · name)

/-- Load the workspace and gate on a minimum role (`require_role`). -/
def requireRole (a : Access) (id : Text) (p : Principal) (min : Role) :
    Except RelayError RelayWorkspace :=
  match a.workspaces[id]? with
  | none => .error (.notFound id)
  | some ws =>
    match a.roleOn ws p with
    | none => .error (.notFound id)
    | some role => if role.rank < min.rank then .error (.forbidden id min role) else .ok ws

/-- A user reads what is theirs and what their teams hold: the join of `chunk_visible_to`. -/
def reads (a : Access) (id user : Text) : Bool :=
  match a.workspaces[id]? with
  | none => false
  | some ws => ws.owner = some user || (ws.teamId.bind (a.memberRole · user)).isSome

/-- A principal writes a workspace. -/
def isWriter (a : Access) (id : Text) (p : Principal) : Bool :=
  match a.requireRole id p .writer with
  | .ok _ => true
  | .error _ => false

/-- Who writes a workspace reads it. -/
theorem reads_of_isWriter {a : Access} {id user : Text} (h : a.isWriter id (.user user) = true) :
    a.reads id user = true := by
  unfold isWriter requireRole at h
  unfold reads
  cases hw : a.workspaces[id]? with
  | none => simp [hw] at h
  | some ws =>
    simp only [hw] at h ⊢
    by_cases ho : ws.owner = some user
    · simp [ho]
    · cases hr : ws.teamId.bind (a.memberRole · user) with
      | none => simp [roleOn, ho, hr] at h
      | some role => simp

end Access

/-! ## The pool -/

/-- `MAX_CHUNK_SIZE`. -/
def maxChunkSize : Nat := 4 * 1024 * 1024

/-- `HEAD_KEEP`. -/
def headKeep : Nat := 50

/-- A retained row of `heads`. Of what it stores the pool reads the chunk list, `none` when
`stored_row_chunks` cannot parse it. -/
structure HeadRow where
  seq : Int
  chunks : Option (List Text)

/-- The steps of an upload or a presence check after its first turn under the lock. -/
inductive FlightPhase where
  /-- An upload stores its entries; `confirmed` are stored or deduped. -/
  | storing (todo : List (Text × List UInt8)) (confirmed : List Text)
  /-- A presence check looks its hashes up in the pool, with the visible ones in memory. -/
  | asking (todo visible present : List Text)
  /-- The answer that acknowledges these chunks is on its way. -/
  | answering (acknowledged : List Text)

/-- A request in flight. -/
structure Flight where
  workspace : Text
  principal : Principal
  phase : FlightPhase
  /-- The principal has held the writer role since the request began. -/
  kept : Bool

/-- An acknowledged chunk, while the principal holds the writer role. -/
structure Ack where
  workspace : Text
  principal : Principal
  hash : Text
  time : Int

structure Relay where
  access : Access
  /-- The retained head rows of each workspace, newest first. -/
  heads : Std.ExtTreeMap Text (List HeadRow) compare
  /-- The chunk lists of the retained snapshot rows. -/
  snapshots : Std.ExtTreeMap Text (List (Option (List Text))) compare
  /-- The rows of `chunk_refs`: workspace and hash. -/
  refs : List (Text × Text)
  /-- The blobs of the pool with their modification times. -/
  blobs : Std.ExtTreeMap Text Int compare
  now : Int
  /-- While a GC holds the lock and sweeps: what it takes for old enough. -/
  sweeping : Option Int
  flights : List Flight
  acks : List Ack

namespace Relay

/-- Is this chunk referenced by a workspace the user can read (`chunk_visible_to`)? -/
def chunkVisibleTo (s : Relay) (hash user : Text) : Bool :=
  s.refs.any fun (id, h) => h = hash && s.access.reads id user

/-- The visibility half of a presence check: the admin sees every chunk. -/
def visible (s : Relay) (hash : Text) : Principal → Bool
  | .admin => true
  | .user name => s.chunkVisibleTo hash name

/-- Does any workspace reference this chunk (`hash_has_refs`)? -/
def hashHasRefs (s : Relay) (hash : Text) : Bool := s.refs.any (·.2 = hash)

/-- `INSERT OR IGNORE INTO chunk_refs`. -/
def insertChunkRefs (s : Relay) (id : Text) (hashes : List Text) : Relay :=
  let rows := hashes.foldl (fun refs h => if (id, h) ∈ refs then refs else (id, h) :: refs) s.refs
  { s with refs := rows }

/-- Store a blob that hashes to its name; one that is there keeps its time (`LocalStore::put`). -/
def storePut (s : Relay) (hash : Text) : Relay :=
  if hash ∈ s.blobs then s else { s with blobs := s.blobs.insert hash s.now }

/-! ## Commits -/

/-- `valid_name`. -/
def validName (name : Text) : Bool :=
  name ≠ [] && (name.map Char.utf8Size).sum ≤ 128 && name ≠ ".".toList && name ≠ "..".toList &&
    !name.any (fun c => c.val < 32 || c.val = 127) && '/' ∉ name

/-- The body of a head or snapshot commit. -/
structure CommitRequest where
  /-- The `X-Pear-Device` header of a head, the `device` field of a snapshot. -/
  device : Option Text
  name : Option Text
  baseSeq : Int
  /-- The plaintext manifest, `some none` when it does not parse. -/
  manifest : Option (Option Manifest)
  /-- The length `manifest_enc` decodes to, `some none` when it is no base64. -/
  manifestEnc : Option (Option Nat)
  chunkHashes : Option (List Text)

/-- Every chunk hash a manifest references (`chunk_hashes`). -/
def chunkHashes (m : Manifest) : List Text := m.files.toList.flatMap (·.2.chunks)

/-- Every chunk must be in the pool and visible to the caller. -/
def requireChunks (s : Relay) (p : Principal) (hashes : List Text) : Except RelayError Unit :=
  match hashes.eraseDups.filter fun h => !(decide (h ∈ s.blobs) && s.visible h p) with
  | [] => .ok ()
  | first :: rest => .error (.chunksNotInPool (rest.length + 1) first)

/-- The trust boundary of a plaintext commit (`validate_submitted_manifest`); it returns the chunks
the manifest references. -/
def validateSubmittedManifest (s : Relay) (id : Text) (p : Principal) (raw : Option Manifest) :
    Except RelayError (List Text) := do
  let some manifest := raw | throw .notAManifest
  (validate manifest).mapError .invalid
  refuseIf (manifest.workspaceId ≠ id) (.wrongWorkspace manifest.workspaceId id)
  -- The env policy of the attached team (`workspace_team_env_policy`).
  match (s.access.workspaces[id]?.bind (·.teamId)).bind (s.access.teams[·]?) with
  | some team =>
    match manifest.files.keys.find? isDotenv with
    | some path => refuseIf (team.syncEnv = false) (.dotenvForbidden path)
    | none => pure ()
  | none => pure ()
  forM manifest.files.keys fun path =>
    forM (ancestors path) fun ancestor =>
      refuseIf (manifest.files[ancestor]? ≠ none) (.invalid (.fileIsDirectory path ancestor))
  forM (chunkHashes manifest) fun hash => refuseIf (isChunkHash hash = false) (.badHash hash)
  s.requireChunks p (chunkHashes manifest)
  return chunkHashes manifest

/-- The trust boundary of an encrypted commit (`validate_e2e_commit`). -/
def validateE2eCommit (s : Relay) (p : Principal) (decoded : Option Nat) (hashes : List Text) :
    Except RelayError (List Text) := do
  let some n := decoded | throw .notBase64
  refuseIf (n < 12 + 16) (.shortManifest n)
  forM hashes fun hash => refuseIf (isChunkHash hash = false) (.badHash hash)
  s.requireChunks p hashes
  return hashes

/-- The flavor pinning and the trust boundary that head and snapshot commits share. -/
def validateCommit (s : Relay) (ws : RelayWorkspace) (id : Text) (p : Principal)
    (req : CommitRequest) : Except RelayError (List Text) := do
  refuseIf (ws.e2e ≠ req.manifestEnc.isSome) (.e2eMismatch ws.e2e)
  if ws.e2e then
    let some hashes := req.chunkHashes | throw .needsChunkHashes
    s.validateE2eCommit p (req.manifestEnc.getD (some 0)) hashes
  else
    let some raw := req.manifest | throw .needsManifest
    s.validateSubmittedManifest id p raw

/-- The sequence number of the newest head, 0 when there is none. -/
def currentSeq (s : Relay) (id : Text) : Int :=
  ((s.heads[id]?.getD []).head?.map (·.seq)).getD 0

/-- Insert a head row with its refs and keep the newest rows (`insert_head`). -/
def insertHead (s : Relay) (id : Text) (seq : Int) (chunks : List Text) : Relay :=
  let rows := ({ seq, chunks := some chunks } :: s.heads[id]?.getD []).take headKeep
  { s with heads := s.heads.insert id rows }.insertChunkRefs id chunks

/-- Insert a named snapshot with its refs (`insert_snapshot`). -/
def insertSnapshot (s : Relay) (id : Text) (chunks : List Text) : Relay :=
  let rows := some chunks :: s.snapshots[id]?.getD []
  { s with snapshots := s.snapshots.insert id rows }.insertChunkRefs id chunks

/-- `PUT /head`. -/
def putHead (s : Relay) (id : Text) (p : Principal) (req : CommitRequest) :
    Except RelayError Relay := do
  let ws ← s.access.requireRole id p .writer
  let some device := req.device | throw .missingDevice
  refuseIf (validName device = false) (.badDevice device)
  let chunks ← s.validateCommit ws id p req
  refuseIf (req.baseSeq ≠ s.currentSeq id) (.headConflict (s.currentSeq id))
  return s.insertHead id (s.currentSeq id + 1) chunks

/-- `POST /snapshots`. -/
def createSnapshot (s : Relay) (id : Text) (p : Principal) (req : CommitRequest) :
    Except RelayError Relay := do
  let ws ← s.access.requireRole id p .writer
  req.name.forM fun name => refuseIf (validName name = false) (.badName name)
  let some device := req.device | throw .missingDevice
  refuseIf (validName device = false) (.badDevice device)
  let chunks ← s.validateCommit ws id p req
  return s.insertSnapshot id chunks

/-! ## Uploads and presence checks -/

/-- `PUT_MANY_MAX_ENTRIES` and `PUT_MANY_MAX_BYTES`. -/
def putManyMaxEntries : Nat := 256
def putManyMaxBytes : Nat := 32 * 1024 * 1024

/-- `MAX_MISSING_BATCH`. -/
def maxMissingBatch : Nat := 50000

/-- The validation of one uploaded entry. -/
def checkEntry (blake3 : List UInt8 → Text) (hash : Text) (blob : List UInt8) :
    Except RelayError Unit := do
  refuseIf (isChunkHash hash = false) (.badHash hash)
  refuseIf (maxChunkSize < blob.length) (.tooBig blob.length)
  refuseIf (blake3 blob ≠ hash) .wrongBody

/-- A request past its first turn under the lock. -/
def flight (s : Relay) (id : Text) (p : Principal) (phase : FlightPhase) : Flight :=
  { workspace := id, principal := p, phase, kept := s.access.isWriter id p }

/-- `PUT /chunks/:hash`, up to the store: the hash and the size are checked before the role, the
body after it, and nothing is stored of an entry that fails. -/
def putChunk (blake3 : List UInt8 → Text) (s : Relay) (id : Text) (p : Principal) (hash : Text)
    (body : List UInt8) : Except RelayError Flight := do
  refuseIf (isChunkHash hash = false) (.badHash hash)
  refuseIf (maxChunkSize < body.length) (.tooBig body.length)
  let _ ← s.access.requireRole id p .writer
  refuseIf (blake3 body ≠ hash) .wrongBody
  return s.flight id p (.storing [(hash, body)] [])

/-- `POST /chunks/put_many`, up to the store. -/
def putManyChunks (s : Relay) (id : Text) (p : Principal) (entries : List (Text × List UInt8)) :
    Except RelayError Flight := do
  refuseIf (putManyMaxEntries < entries.length) .batchTooBig
  refuseIf (putManyMaxBytes < (entries.map (·.2.length)).sum) .batchTooBig
  let _ ← s.access.requireRole id p .writer
  return s.flight id p (.storing entries [])

/-- `POST /chunks/missing`, up to the lookups in the pool. -/
def chunksMissing (s : Relay) (id : Text) (p : Principal) (hashes : List Text) :
    Except RelayError Flight := do
  refuseIf (maxMissingBatch < hashes.length) .batchTooBig
  forM hashes fun hash => refuseIf (isChunkHash hash = false) (.badHash hash)
  let _ ← s.access.requireRole id p .reader
  return s.flight id p (.asking hashes (hashes.filter fun h => s.visible h p) [])

/-- One step of a request in flight. The row insert takes the lock; the answer acknowledges the
chunks and ends the request. -/
def advance (blake3 : List UInt8 → Text) (s : Relay) (i : Nat) (f : Flight) : Option Relay :=
  match f.phase with
  | .storing ((hash, blob) :: todo) confirmed =>
    match checkEntry blake3 hash blob with
    | .ok _ => some { s.storePut hash with
        flights := s.flights.set i { f with phase := .storing todo (hash :: confirmed) } }
    | .error _ => some { s with
        flights := s.flights.set i { f with phase := .storing todo confirmed } }
  | .storing [] confirmed =>
    if s.sweeping.isSome then none
    else some { s.insertChunkRefs f.workspace confirmed with
      flights := s.flights.set i { f with phase := .answering confirmed } }
  | .asking (hash :: todo) visible present =>
    let found := decide (hash ∈ s.blobs) && decide (hash ∈ visible)
    some { s with flights := s.flights.set i { f with
      phase := .asking todo visible (if found then hash :: present else present) } }
  | .asking [] _ present => some { s with
      flights := s.flights.set i { f with phase := .answering present } }
  | .answering hashes => some { s with
      flights := s.flights.eraseIdx i
      acks := (if f.kept then hashes.map fun hash =>
        { workspace := f.workspace, principal := f.principal, hash, time := s.now } else []) ++
          s.acks }

/-! ## The pool GC -/

/-- The chunks a workspace's retained rows pin; `none` when one of them does not parse. -/
def live (s : Relay) (id : Text) : Option (List Text) :=
  (((s.heads[id]?.getD []).map (·.chunks) ++ s.snapshots[id]?.getD []).mapM fun row => row).map
    List.flatten

/-- `chunk_refs` becomes the live set of every workspace whose rows all parse
(`gc_rebuild_refs`). -/
def gcRebuildRefs (s : Relay) : Relay :=
  let kept := s.refs.filter fun (id, h) =>
    if id ∈ s.access.workspaces then
      match s.live id with
      | some pinned => h ∈ pinned
      | none => true
    else true
  s.access.workspaces.keys.foldl (fun s' id => match s.live id with
    | some pinned => s'.insertChunkRefs id pinned
    | none => s') { s with refs := kept }

/-- A blob the sweep collects: no workspace references it, and it is older than the grace window. -/
def collectable (s : Relay) (hash : Text) : Bool :=
  match s.sweeping, s.blobs[hash]? with
  | some cutoff, some mtime => !s.hashHasRefs hash && decide (mtime < cutoff)
  | _, _ => false

/-! ## The system -/

/-- What can happen at the relay. -/
inductive Event where
  | tick (d : Nat)
  /-- Users, teams, roles, attachments and policies change. -/
  | access (a : Access)
  | putChunk (id : Text) (p : Principal) (hash : Text) (body : List UInt8)
  | putManyChunks (id : Text) (p : Principal) (entries : List (Text × List UInt8))
  | chunksMissing (id : Text) (p : Principal) (hashes : List Text)
  /-- A request in flight takes a step, or ends in an error. -/
  | advance (i : Nat)
  | abort (i : Nat)
  | putHead (id : Text) (p : Principal) (req : CommitRequest)
  | createSnapshot (id : Text) (p : Principal) (req : CommitRequest)
  /-- A GC takes the lock and rebuilds the refs. -/
  | gc
  /-- It looks at one blob. -/
  | sweep (hash : Text)
  /-- It is done, or fails. -/
  | gcDone

/-- The state after new access tables: a request or an acknowledgement of a principal who is no
longer a writer does not count any more. -/
def setAccess (s : Relay) (a : Access) : Relay :=
  { s with
    access := a
    flights := s.flights.map fun f => { f with kept := f.kept && a.isWriter f.workspace f.principal }
    acks := s.acks.filter fun k => a.isWriter k.workspace k.principal }

/-- A request is in flight, or refused. -/
def accept (s : Relay) : Except RelayError Flight → Relay
  | .ok f => { s with flights := f :: s.flights }
  | .error _ => s

/-- A commit that is refused changes nothing. -/
def commit (s : Relay) : Except RelayError Relay → Relay
  | .ok s' => s'
  | .error _ => s

/-- One step of the relay. What takes the lock waits for a sweep to end. -/
def step (blake3 : List UInt8 → Text) (grace : Int) (s : Relay) : Event → Option Relay
  | .tick d => some { s with now := s.now + d }
  | .access a => if s.sweeping.isSome then none else some (s.setAccess a)
  | .putChunk id p hash body =>
    if s.sweeping.isSome then none else some (s.accept (s.putChunk blake3 id p hash body))
  | .putManyChunks id p entries =>
    if s.sweeping.isSome then none else some (s.accept (s.putManyChunks id p entries))
  | .chunksMissing id p hashes =>
    if s.sweeping.isSome then none else some (s.accept (s.chunksMissing id p hashes))
  | .advance i => s.flights[i]?.bind (s.advance blake3 i)
  | .abort i => some { s with flights := s.flights.eraseIdx i }
  | .putHead id p req =>
    if s.sweeping.isSome then none else some (s.commit (s.putHead id p req))
  | .createSnapshot id p req =>
    if s.sweeping.isSome then none else some (s.commit (s.createSnapshot id p req))
  | .gc =>
    if s.sweeping.isSome then none
    else some { s.gcRebuildRefs with sweeping := some (s.now - grace) }
  | .sweep hash => some (if s.collectable hash then { s with blobs := s.blobs.erase hash } else s)
  | .gcDone => some { s with sweeping := none }

/-- A relay at its start: no request is in flight, and nothing is acknowledged. -/
def boot (access : Access) (heads : Std.ExtTreeMap Text (List HeadRow) compare)
    (snapshots : Std.ExtTreeMap Text (List (Option (List Text))) compare)
    (refs : List (Text × Text)) (blobs : Std.ExtTreeMap Text Int compare) (now : Int) : Relay :=
  { access, heads, snapshots, refs, blobs, now, sweeping := none, flights := [], acks := [] }

end Relay

end Pear
