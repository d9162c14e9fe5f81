import Pear.Disk.Applied
import Pear.Errors
import Pear.Sealed

/-!
# Cloning a snapshot

`clone_from_snapshot` and `clone_from_snapshot_e2e` (`snapshot.rs`) as one program. It asks the relay
for the snapshot, refuses what it must not clone or where it must not clone to, makes the directory
a workspace, fetches the chunks, applies the manifest with the apply engine of `Pear.Disk` to what was
empty, and records where the clone comes from. When the part after the initialization fails, what is in
the directory is removed again.

`cloneHost` is the machine it runs on: a directory that may not be there, with its local store. The
relay answers a snapshot as it likes (`CloneRelay`), and a call that can fail may answer anything a
relay may answer, or an I/O error after a part of its effect.
-/

namespace Pear

open Lib (Errno Node Attr Content)

/-! ## The data -/

/-- A snapshot's metadata (`SnapshotInfo`). -/
structure SnapshotInfo where
  id : Nat
  name : Option Text
  kind : Text
  device : Text
  createdAt : Int
deriving DecidableEq

/-- A snapshot off the wire (`Snapshot`): an encrypted one has `manifestEnc` and a placeholder for its
manifest. -/
structure Snapshot where
  info : SnapshotInfo
  manifest : Manifest
  manifestEnc : Option Text

/-- `.pear/workspace.json` (`WorkspaceMeta`). -/
structure WorkspaceMeta where
  id : Text
  version : Nat
deriving DecidableEq

/-- `.pear/origin.json` (`CloneOrigin`). -/
structure CloneOrigin where
  workspaceId : Text
  snapshotId : Nat
  name : Option Text
  clonedAt : Int
deriving DecidableEq

/-- What a clone reports (`CloneReport`). -/
structure CloneReport where
  workspaceId : Text
  filesWritten : Nat
  chunksFetched : Nat
  bytesFetched : Nat
deriving DecidableEq

/-- Why a clone ends early. -/
inductive CloneError where
  /-- "not found: {what}" -/
  | notFound (what : Text)
  | relay (e : ClientError)
  /-- "snapshot {id} is end-to-end encrypted; fetch the workspace key first …" -/
  | encrypted (id : Nat)
  /-- "snapshot {id} is not end-to-end encrypted; refusing to clone it with a workspace key" -/
  | notEncrypted (id : Nat)
  /-- "cannot decrypt the snapshot's manifest" -/
  | cannotDecrypt (e : SealedManifestError)
  /-- "invalid manifest from relay" -/
  | invalidManifest (e : ManifestError)
  /-- "snapshot {id} belongs to workspace {owner}, but the client targets {workspace}" -/
  | foreign (id : Nat) (owner workspace : Text)
  /-- "{target} is already a pear workspace; clone needs a fresh directory" -/
  | alreadyWorkspace
  /-- "{target} is not empty; clone needs a fresh directory" -/
  | notEmpty
  /-- "read {path}", "parse {path}" of `.pear/workspace.json`, before the clone or in its
  initialization -/
  | unreadableMeta (e : Errno)
  | badMeta
  | initUnreadable (e : Errno)
  | initBadMeta
  /-- "create {target}" -/
  | create (e : Errno)
  | init (e : DiskError)
  | keyring (e : DiskError)
  | store (e : DiskError)
  | storeCall (e : Errno)
  /-- "relay is missing {n} chunk(s) the snapshot references (e.g. {hash}): cannot clone" -/
  | missing (hashes : List Text)
  /-- "fetched chunk {hash} does not match its BLAKE3 content hash" -/
  | badChunk (hash : Text)
  | apply (e : DiskError)
  | origin (e : DiskError)

/-- Errors that end a clone after it has begun to fill the directory and before its cleanup covers
it. -/
def CloneError.Setup : CloneError → Prop
  | .initUnreadable _ | .initBadMeta | .create _ | .init _ | .keyring _ => True
  | _ => False

/-! ## Calls -/

/-- The calls of a clone. -/
inductive CloneOp where
  /-- `GET /snapshots/{id}` -/
  | getSnapshot (id : Nat)
  /-- `POST /chunks/missing` -/
  | chunksMissing (hashes : List Text)
  /-- `GET /chunks/{hash}` -/
  | fetchChunk (hash : Text)
  /-- `fs::read` of `.pear/workspace.json` -/
  | readMeta
  /-- `fs::read_dir` of the target -/
  | listTarget
  /-- `create_dir_all` of the target, `canonicalize` -/
  | createTarget
  | disk (op : DiskOp)
  /-- `LocalStore::has_many` -/
  | hasMany (hashes : List Text)
  /-- `LocalStore::put` -/
  | put (hash : Text) (data : Bytes)
  /-- `remove_dir_all` or `remove_file` of an entry of the target -/
  | removeEntry (name : Text)

/-- What a call answers. -/
abbrev CloneOp.Ret : CloneOp → Type
  | .getSnapshot _ => Except ClientError Snapshot
  | .chunksMissing _ => Except ClientError (List Text)
  | .fetchChunk _ => Except ClientError Bytes
  | .readMeta => Except Errno Bytes
  | .listTarget => Except Errno (List Text)
  | .createTarget => Except Errno Unit
  | .disk op => op.Ret
  | .hasMany _ => Except Errno (List Bool)
  | .put _ _ => Except Errno Bool
  | .removeEntry _ => Unit

/-- The directory a clone is made in, if it is there, and its `.pear/store`. -/
structure CloneHost where
  target : Option Tree
  store : ChunkStore

/-- What a relay answers: its snapshots and its pool. -/
structure CloneRelay where
  snapshot : Nat → Except ClientError Snapshot
  pool : Text → Option Bytes

/-- How a call fails: the error, the part of its effect that is done, and what the relay answers
instead of the truth. -/
structure CloneFault where
  error : ClientError
  part : Option Nat
  missing : Except ClientError (List Text)
  chunk : Except ClientError Bytes
  /-- What a removal that fails has removed. -/
  gone : List Loc

/-- What a clone brings along: the cipher, the encodings of the files it writes, the case fold and the
staging names of the apply, and the id and the time it draws. -/
structure CloneEnv (Key : Type) where
  cipher : ChunkCipher Key
  json : ManifestJson
  writeMeta : WorkspaceMeta → Bytes
  readMeta : Bytes → Option WorkspaceMeta
  writeKeyring : Keyring Key → Bytes
  writeOrigin : CloneOrigin → Bytes
  writeManifest : Manifest → Bytes
  lower : Text → Text
  tag : Text → Text
  newId : Text
  clonedAt : Int

/-- `.pear/workspace.json`, `.pear/workspace_keys`, `.pear/workspace_key`, `.pear/origin.json` and
`.pear/store`. -/
def metaLoc : Loc := pearLoc ++ ["workspace.json".toList]
def keysLoc : Loc := pearLoc ++ ["workspace_keys".toList]
def legacyKeyLoc : Loc := pearLoc ++ ["workspace_key".toList]
def originLoc : Loc := pearLoc ++ ["origin.json".toList]
def storeLoc : Loc := pearLoc ++ ["store".toList]

variable {Key : Type}

/-- `LocalStore::get`: the bytes under a name, which must hash to it. -/
def storeGet (C : ChunkCipher Key) (store : ChunkStore) (hash : Text) : Option Bytes :=
  store[hash]?.filter (C.blake3 · = hash)

section
variable (E : CloneEnv Key) (key : ReadKey Key) (R : CloneRelay) (now : Int × Int)

/-- A disk call on a directory that is not there. -/
def DiskOp.refused : (op : DiskOp) → op.Ret
  | .effect _ => .error .notFound
  | .lstat _ => .error .notFound
  | .readDir _ => .error .notFound
  | .getChunk _ => .error .notFound

/-- The disk on which the apply runs: the chunks are read from the store. -/
abbrev cloneDisk (store : ChunkStore) : Lib.Machine Tree DiskOp DiskOp.Ret (Option Nat) Empty :=
  disk (chunkSource E.cipher key (storeGet E.cipher store)) now Empty nofun

/-- A call that is done. -/
def cloneExec : (op : CloneOp) → CloneHost → op.Ret × CloneHost
  | .getSnapshot id, w => (R.snapshot id, w)
  | .chunksMissing hashes, w => (.ok (hashes.filter (R.pool · = none)), w)
  | .fetchChunk hash, w =>
    (match R.pool hash with | some data => .ok data | none => .error (.notFound hash), w)
  | .readMeta, w =>
    (match w.target with | some t => (t.read metaLoc).map (·.1) | none => .error .notFound, w)
  | .listTarget, w =>
    (match w.target with | some t => t.readDir [] | none => .error .notFound, w)
  | .createTarget, w => (.ok (), { w with target := some (w.target.getD emptyTree) })
  | .disk op, w =>
    match w.target with
    | some t =>
      (((cloneDisk E key now w.store).exec op t).1,
        { w with target := some ((cloneDisk E key now w.store).exec op t).2 })
    | none => (op.refused, w)
  | .hasMany hashes, w => (.ok (hashes.map fun h => w.store.contains h), w)
  | .put hash data, w =>
    if E.cipher.blake3 data ≠ hash then (.error .other, w)
    else if w.store.contains hash then (.ok false, w)
    else (.ok true, { w with store := w.store.insert hash data })
  | .removeEntry name, w =>
    ((), {
      target := w.target.map fun t => t.removeBelow [name] (List.cons_ne_nil _ _)
      store := if name = pearDir then ∅ else w.store })

/-- A call that fails. -/
def cloneFault (f : CloneFault) : (op : CloneOp) → CloneHost → op.Ret × CloneHost
  | .getSnapshot _, w => (.error f.error, w)
  | .chunksMissing _, w => (f.missing, w)
  | .fetchChunk _, w => (f.chunk, w)
  | .readMeta, w => (.error .other, w)
  | .listTarget, w => (.error .other, w)
  | .createTarget, w =>
    (.error .other, { w with target := if f.part.isSome then some (w.target.getD emptyTree) else w.target })
  | .disk op, w =>
    match w.target with
    | some t =>
      (((cloneDisk E key now w.store).fault op f.part t).1,
        { w with target := some ((cloneDisk E key now w.store).fault op f.part t).2 })
    | none => (op.refused, w)
  | .hasMany _, w => (.error .other, w)
  | .put _ _, w => (.error .other, w)
  | .removeEntry name, w =>
    ((), { w with target := w.target.map fun t =>
      (f.gone.filter ([name] <+: ·)).foldl (fun t l => (t.remove l).getD t) t })

/-- The machine of a clone, where these calls can fail. -/
def cloneHost (fails : CloneOp → Bool) :
    Lib.Machine CloneHost CloneOp CloneOp.Ret CloneFault Empty where
  exec op w := cloneExec E key R now op w
  fault op f w := if fails op then cloneFault E key now f op w else cloneExec E key R now op w
  act := nofun

end

/-! ## The program -/

abbrev CloneProg (α : Type) : Type := Lib.Prog CloneOp CloneOp.Ret CloneError α

/-- A call and its answer. -/
def ask (op : CloneOp) : CloneProg op.Ret := .call op .done

/-- A result that ends the program when it is an error. -/
def orFail {ε α : Type} (wrap : ε → CloneError) : Except ε α → CloneProg α
  | .ok a => .done a
  | .error e => .fail (wrap e)

/-- A program of the disk, on the target. -/
def onTarget {α : Type} (wrap : DiskError → CloneError) (p : DiskProg α) : CloneProg α := do
  let r ← ((p.interp fun op => .call (.disk op) .done).attempt : CloneProg (Except DiskError α))
  orFail wrap r

/-- The error of a failed `GET /snapshots/{id}`. -/
def CloneError.ofClient : ClientError → CloneError
  | .notFound what => .notFound what
  | e => .relay e

section
variable (E : CloneEnv Key) (workspace : Text) (id : Nat) (key : ReadKey Key)

/-- The manifest of a snapshot of the flavor that is asked for. -/
def snapshotManifest (s : Snapshot) : Except CloneError Manifest :=
  match s.manifestEnc, key with
  | some _, none => .error (.encrypted id)
  | none, some _ => .error (.notEncrypted id)
  | some enc, some r => (decryptManifest E.cipher E.json r enc).mapError .cannotDecrypt
  | none, none => .ok s.manifest

/-- The snapshot's manifest, if it may be cloned. -/
def openSnapshot (s : Snapshot) : Except CloneError Manifest := do
  let wire ← snapshotManifest E id key s
  (validate wire).mapError .invalidManifest
  refuseIf (wire.workspaceId ≠ workspace) (.foreign id wire.workspaceId workspace)
  return wire

/-- `load_workspace` -/
def loadWorkspace (unreadable : Errno → CloneError) (bad : CloneError) :
    CloneProg (Option WorkspaceMeta) := do
  match ← ask .readMeta with
  | .ok data =>
    match E.readMeta data with
    | some ws => pure (some ws)
    | none => .fail bad
  | .error .notFound => pure none
  | .error e => .fail (unreadable e)

/-- `init_workspace`, with a fresh id. -/
def initWorkspace : CloneProg WorkspaceMeta := do
  match ← loadWorkspace E .initUnreadable .initBadMeta with
  | some ws => pure ws
  | none =>
    let ws : WorkspaceMeta := { id := E.newId, version := formatVersion }
    onTarget .init do
      must (.mkdirAll pearLoc)
      must (.setPrivateDir pearLoc)
      writeFileAtomic (pearLoc ++ ["workspace.tmp".toList]) metaLoc (E.writeMeta ws)
    pure ws

/-- `store_workspace_keyring`, on an encrypted workspace. -/
def storeKeyring : CloneProg Unit :=
  match key with
  | none => pure ()
  | some r => onTarget .keyring do
    must (.mkdirAll pearLoc)
    must (.setPrivateDir pearLoc)
    must (.createPrivate keysLoc)
    must (.append keysLoc (E.writeKeyring r))
    must (.setMode keysLoc 0o600)
    ignore (.removeFile legacyKeyLoc)

/-- Fetch a chunk, verify it and put it into the store. -/
def fetchOne (counts : Nat × Nat) (hash : Text) : CloneProg (Nat × Nat) := do
  let data ← orFail .relay (← ask (.fetchChunk hash))
  if E.cipher.blake3 data ≠ hash then .fail (.badChunk hash)
  else
    let stored ← orFail .storeCall (← ask (.put hash data))
    pure (if stored then counts.1 + 1 else counts.1, counts.2 + data.length)

/-- Fetch the chunks that the store lacks, when the relay has them all. -/
def fetchNeeded (need : List Text) : CloneProg (Nat × Nat) := do
  if need = [] then pure (0, 0)
  else
    let present ← orFail .storeCall (← ask (.hasMany need))
    let toFetch := ((need.zip present).filter (!·.2)).map (·.1)
    if toFetch = [] then pure (0, 0)
    else
      let missing ← orFail .relay (← ask (.chunksMissing toFetch))
      if missing ≠ [] then .fail (.missing missing)
      else toFetch.foldlM (fetchOne E) (0, 0)

/-- The manifest of the clone: the snapshot's files with masked modes, under the clone's own id. -/
def cloneManifest (wire : Manifest) (newId : Text) : Manifest :=
  { wire with workspaceId := newId, files := maskModes wire.files }

/-- `clone_apply` -/
def cloneApply (wire : Manifest) (info : SnapshotInfo) (ws : WorkspaceMeta) :
    CloneProg CloneReport := do
  onTarget .store do
    must (.mkdirAll (storeLoc ++ ["chunks".toList]))
    must (.setPrivateDir storeLoc)
  let counts ← fetchNeeded E (wire.files.toList.flatMap (·.2.chunks)).eraseDups
  let new := cloneManifest wire ws.id
  let report ← onTarget .apply
    (applyCommit E.lower E.tag E.writeManifest (.new ws.id) new new)
  onTarget .origin
    (writeFileAtomic (pearLoc ++ ["origin.tmp".toList]) originLoc (E.writeOrigin {
      workspaceId := workspace
      snapshotId := info.id
      name := info.name
      clonedAt := E.clonedAt }))
  return {
    workspaceId := ws.id
    filesWritten := report.written.length
    chunksFetched := counts.1
    bytesFetched := counts.2 }

/-- Remove what is in the target, as far as possible. -/
def emptyTarget : CloneProg Unit := do
  match ← ask .listTarget with
  | .ok names => forM names fun name => ask (.removeEntry name)
  | .error _ => pure ()

/-- Refuse a target that is a workspace. -/
def refuseWorkspace : CloneProg Unit := do
  match ← loadWorkspace E .unreadableMeta .badMeta with
  | some _ => .fail .alreadyWorkspace
  | none => pure ()

/-- Refuse a target with something in it; one that cannot be listed will do. -/
def refuseFull : CloneProg Unit := do
  match ← ask .listTarget with
  | .ok (_ :: _) => .fail .notEmpty
  | _ => pure ()

/-- The refusals, before anything is touched. -/
def admitClone : CloneProg (Manifest × SnapshotInfo) := do
  let snapshot ← orFail .ofClient (← ask (.getSnapshot id))
  let wire ← orFail (fun e => e) (openSnapshot E workspace id key snapshot)
  refuseWorkspace E
  refuseFull
  return (wire, snapshot.info)

/-- Make the target a workspace. -/
def setUpClone : CloneProg WorkspaceMeta := do
  orFail .create (← ask .createTarget)
  let ws ← initWorkspace E
  storeKeyring E key
  return ws

/-- `clone_inner` -/
def clone : CloneProg CloneReport := do
  let admitted ← admitClone E workspace id key
  let ws ← setUpClone E key
  match ← ((cloneApply E workspace admitted.1 admitted.2 ws).attempt :
      CloneProg (Except CloneError CloneReport)) with
  | .ok report => pure report
  | .error e => do
    emptyTarget
    .fail e

end

end Pear
