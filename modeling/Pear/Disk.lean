import Pear.Lib.FileTree
import Pear.Lib.Prog
import Pear.Converge

/-!
# Materializing a merge on disk

The apply engine (`apply.rs`) and `materialize` (`converge.rs`) as programs that call the file
system and the chunk source, one call at a time. `disk` is the machine they run on: a tree below the
workspace root and a chunk source; a call may fail at any moment, and a copy, a write or the making
of directories may then have been done in part. The names of staged files are random in the source
and a parameter here, as are the fold of `to_lowercase` and the bytes of a serialized manifest.
-/

namespace Pear

open Lib (Errno Node Attr Content)

abbrev Tree := Lib.FileTree Text

/-! ## Calls -/

/-- The calls that change the tree, and `sync`, which opens a path and flushes it. -/
inductive DiskEffect where
  /-- `create_dir_all` -/
  | mkdirAll (l : Loc)
  /-- `set_private_dir` -/
  | setPrivateDir (l : Loc)
  | removeFile (l : Loc)
  | removeDir (l : Loc)
  | rename (src dst : Loc)
  /-- `create_private_file`: a new file, or the old one emptied -/
  | createPrivate (l : Loc)
  /-- `write_all` on the file just created -/
  | append (l : Loc) (data : Bytes)
  | setMode (l : Loc) (mode : Nat)
  | setFileMtime (l : Loc) (mtime : Int × Int)
  | sync (l : Loc)
  /-- `fs::copy`: bytes and mode -/
  | copy (src dst : Loc)
deriving DecidableEq

/-- The calls of the programs. -/
inductive DiskOp where
  | effect (e : DiskEffect)
  /-- `symlink_metadata` -/
  | lstat (l : Loc)
  | readDir (l : Loc)
  /-- `ChunkSource::get` -/
  | getChunk (hash : Text)

/-- What a call answers. -/
abbrev DiskOp.Ret : DiskOp → Type
  | .effect _ => Except Errno Unit
  | .lstat _ => Except Errno (Node Text)
  | .readDir _ => Except Errno (List Text)
  | .getChunk _ => Except Errno Bytes

namespace DiskEffect

/-- What a call does; `now` is the time of the changes. -/
def run (now : Int × Int) : DiskEffect → Tree → Except Errno Unit × Tree
  | .mkdirAll l, t => t.mkdirs [] l
  | .setPrivateDir l, t => t.update l fun data attr => (data, { attr with mode := 0o700 })
  | .removeFile l, t => t.unlink l
  | .removeDir l, t => t.rmdir l
  | .rename src dst, t => t.rename src dst
  | .createPrivate l, t => t.write l [] fun old => ⟨(old.map (·.mode)).getD 0o600, now⟩
  | .append l data, t => t.update l fun old attr => (old ++ data, { attr with mtime := now })
  | .setMode l mode, t => t.update l fun data attr => (data, { attr with mode })
  | .setFileMtime l mtime, t => t.update l fun data attr => (data, { attr with mtime })
  | .sync l, t => t.update l Prod.mk
  | .copy src dst, t =>
    match t.read src with
    | .ok (data, attr) => t.write dst data fun _ => { attr with mtime := now }
    | .error e => (.error e, t)

/-- What a call that fails may have done: nothing, or a part of it. -/
def partialRun (now : Int × Int) : DiskEffect → Option Nat → Tree → Tree
  | .mkdirAll l, some n, t => (t.mkdirs [] (l.take n)).2
  | .append l data, some n, t =>
    (t.update l fun old attr => (old ++ data.take n, { attr with mtime := now })).2
  | .copy src dst, some n, t =>
    match t.read src with
    | .ok (data, attr) => (t.write dst (data.take n) fun _ => { attr with mtime := now }).2
    | .error _ => t
  | _, _, t => t

/-- The path a call names and the location it changes, if it changes content. -/
def targets (t : Tree) : DiskEffect → List Loc
  | .removeFile l => at_ t false l
  | .rename src dst => at_ t false src ++ at_ t false dst
  | .createPrivate l | .append l _ | .copy _ l => l :: at_ t true l
  | _ => []
where
  /-- The location a path leads to. -/
  at_ (t : Tree) (follow : Bool) (l : Loc) : List Loc :=
    match t.locate follow l with
    | .ok (some x) => [x]
    | _ => []

end DiskEffect

/-- The machine: the calls on a tree, with a chunk source; a failing call answers an I/O error. -/
def disk (source : Text → Option Bytes) (now : Int × Int) (A : Type) (act : A → Tree → Option Tree) :
    Lib.Machine Tree DiskOp DiskOp.Ret (Option Nat) A where
  exec op t := match op with
    | .effect e => e.run now t
    | .lstat l => (t.lstat l, t)
    | .readDir l => (t.readDir l, t)
    | .getChunk hash => (match source hash with | some b => .ok b | none => .error .notFound, t)
  fault op f t := match op with
    | .effect e => (.error .other, e.partialRun now f t)
    | .lstat _ => (.error .other, t)
    | .readDir _ => (.error .other, t)
    | .getChunk _ => (.error .other, t)
  act := act

/-- The locations with content that a call is about to overwrite, delete or write through. -/
def DiskOp.touches (t : Tree) : DiskOp → List Loc
  | .effect e => (e.targets t).filter fun l => t.content l ≠ none
  | _ => []

/-! ## Errors -/

/-- Why a materialization ends early. -/
inductive DiskError where
  /-- A call fails; the message names its path. -/
  | failed (call : DiskEffect) (e : Errno)
  | unreadable (l : Loc) (e : Errno)
  /-- "fetch chunk {hash} for {rel}" -/
  | noChunk (hash rel : Text) (e : Errno)
  /-- "refusing to follow symlinked ancestor {dir}" -/
  | symlinkedAncestor (dir : Loc)
  /-- "invalid old manifest", "invalid new manifest" -/
  | invalidOld (e : ManifestError)
  | invalidNew (e : ManifestError)
  /-- "manifest paths {other} and {rel} collide on case-insensitive filesystems" -/
  | collide (other rel : Text)
  /-- "manifest has no entry for {rel}" -/
  | noEntry (rel : Text)

abbrev DiskProg (α : Type) : Type := Lib.Prog DiskOp DiskOp.Ret DiskError α

/-- A call whose failure the program handles. -/
def attempt (e : DiskEffect) : DiskProg (Except Errno Unit) := .call (.effect e) .done

def lstat (l : Loc) : DiskProg (Except Errno (Node Text)) := .call (.lstat l) .done

def readDir (l : Loc) : DiskProg (Except Errno (List Text)) := .call (.readDir l) .done

def getChunk (hash : Text) : DiskProg (Except Errno Bytes) := .call (.getChunk hash) .done

/-- A call whose failure ends the program (`?`). -/
def must (e : DiskEffect) : DiskProg Unit := do
  match ← attempt e with
  | .ok _ => pure ()
  | .error errno => .fail (.failed e errno)

/-- A call whose failure is ignored. -/
def ignore (e : DiskEffect) : DiskProg Unit := do
  let _ ← attempt e
  pure ()

/-! ## Files and directories -/

/-- The directories above a location, from the nearest up to the root, without the root. -/
def dirsAbove (l : Loc) : List Loc := (l.inits.filter fun d => d ≠ [] ∧ d ≠ l).reverse

/-- Reject a destination below a symlink (`ensure_real_ancestors`); missing ancestors are fine. -/
def ensureRealAncestors (dest : Loc) : DiskProg Unit :=
  forM (dirsAbove dest) fun dir => do
    match ← lstat dir with
    | .ok (.link _) => .fail (.symlinkedAncestor dir)
    | .ok _ => pure ()
    | .error .notFound => pure ()
    | .error e => .fail (.unreadable dir e)

/-- Remove directories one by one, until one is not empty or not removable. -/
def pruneDirs : List Loc → DiskProg Unit
  | [] => pure ()
  | d :: ds => do
    match ← attempt (.removeDir d) with
    | .ok _ => pruneDirs ds
    | .error _ => pure ()

/-- `prune_empty_parents`. -/
def pruneEmptyParents (l : Loc) : DiskProg Unit := pruneDirs (dirsAbove l)

/-- Remove a file that may be gone already. -/
def removeIfThere (l : Loc) : DiskProg Unit := do
  match ← attempt (.removeFile l) with
  | .ok _ => pure ()
  | .error .notFound => pure ()
  | .error e => .fail (.failed (.removeFile l) e)

/-- `delete_file`. -/
def deleteFile (rel : Text) : DiskProg Unit := do
  ensureRealAncestors (loc rel)
  removeIfThere (loc rel)
  pruneEmptyParents (loc rel)

/-- `.pear`. -/
def pearLoc : Loc := [pearDir]

/-- `.pear/staging`. -/
def stagingDir : Loc := [pearDir, "staging".toList]

/-- `clean_staging`: remove what a crash left there, as far as possible. -/
def cleanStaging : DiskProg Unit := do
  match ← readDir stagingDir with
  | .ok names => forM names fun name => ignore (.removeFile (stagingDir ++ [name]))
  | .error _ => pure ()

/-- Write an entry's chunks to the file just created. -/
def appendChunks (l : Loc) (rel : Text) (hashes : List Text) : DiskProg Unit :=
  forM hashes fun hash => do
    match ← getChunk hash with
    | .ok data => must (.append l data)
    | .error e => .fail (.noChunk hash rel e)

/-- The modification time an entry is restored with. -/
def FileEntry.mtime (e : FileEntry) : Int × Int := (e.mtimeSecs, clampNanos e.mtimeNanos)

/-- The temporary a path is staged in, `stage-{pid}-{random}.tmp`. -/
def stagePath (tag : Text → Text) (rel : Text) : Loc :=
  stagingDir ++ ["stage-".toList ++ tag rel ++ ".tmp".toList]

/-- Assemble a file in the staging directory, rename it into place and restore its modification time
(`write_file`). -/
def writeFile (tag : Text → Text) (rel : Text) (entry : FileEntry) : DiskProg Unit := do
  must (.createPrivate (stagePath tag rel))
  appendChunks (stagePath tag rel) rel entry.chunks
  must (.setMode (stagePath tag rel) (entry.mode &&& 0o777))
  ensureRealAncestors (loc rel)
  must (.mkdirAll (loc rel).dropLast)
  must (.rename (stagePath tag rel) (loc rel))
  must (.setFileMtime (loc rel) entry.mtime)

/-- Write a file by way of a temporary next to it (`write_file_atomic`). -/
def writeFileAtomic (tmp path : Loc) (data : Bytes) : DiskProg Unit := do
  must (.createPrivate tmp)
  must (.append tmp data)
  must (.sync tmp)
  must (.rename tmp path)
  ignore (.sync path.dropLast)

/-! ## The apply -/

/-- The first two keys that a case fold makes one. -/
def collision (lower : Text → Text) : List (Text × Text) → List Text → Option (Text × Text)
  | _, [] => none
  | folded, rel :: rels =>
    match folded.lookup (lower rel) with
    | some other => some (other, rel)
    | none => collision lower ((lower rel, rel) :: folded) rels

/-- What an apply reports. -/
structure ApplyReport where
  written : List Text
  deleted : List Text
deriving DecidableEq

/-- Write the entry a manifest has for a path. -/
def writeEntry (tag : Text → Text) (new : FileMap) (rel : Text) : DiskProg Unit :=
  match new[rel]? with
  | some entry => writeFile tag rel entry
  | none => .fail (.noEntry rel)

/-- Flush a written file; one that is gone is moot. -/
def flushWritten (l : Loc) : DiskProg Unit := do
  match ← attempt (.sync l) with
  | .ok _ => pure ()
  | .error .notFound => pure ()
  | .error e => .fail (.failed (.sync l) e)

/-- The refusals before anything is touched: invalid manifests, and keys that differ only in case. -/
def checkManifests (lower : Text → Text) (old new : Manifest) : DiskProg Unit :=
  match validate old, validate new, collision lower [] new.files.keys with
  | .error e, _, _ => .fail (.invalidOld e)
  | _, .error e, _ => .fail (.invalidNew e)
  | _, _, some (other, rel) => .fail (.collide other rel)
  | _, _, none => pure ()

/-- Make the staging directory, owner-only and empty. -/
def prepareStaging : DiskProg Unit := do
  must (.mkdirAll stagingDir)
  must (.setPrivateDir pearLoc)
  must (.setPrivateDir stagingDir)
  cleanStaging

/-- The deletes and writes, worktree before `.git`, deletes before writes. -/
def applyDiff (tag : Text → Text) (old new : FileMap) : DiskProg Unit := do
  forM ((diff old new).deleted.filter (!isGitPath ·)) deleteFile
  forM (((diff old new).added ++ (diff old new).changed).filter (!isGitPath ·)) (writeEntry tag new)
  forM ((diff old new).deleted.filter (isGitPath ·)) deleteFile
  forM (((diff old new).added ++ (diff old new).changed).filter (isGitPath ·)) (writeEntry tag new)

/-- The group flush: every written file, then every directory of a written or deleted one. -/
def flushDiff (old new : FileMap) : DiskProg Unit := do
  let writes := (diff old new).added ++ (diff old new).changed
  forM writes fun rel => flushWritten (loc rel)
  forM (((diff old new).deleted ++ writes).map fun rel => (loc rel).dropLast).dedup
    fun dir => ignore (.sync dir)

/-- Converge the tree from `old` to `new` and swap the manifest pointer to `commit`
(`apply_commit`). -/
def applyCommit (lower tag : Text → Text) (encode : Manifest → Bytes) (old new commit : Manifest) :
    DiskProg ApplyReport := do
  checkManifests lower old new
  prepareStaging
  applyDiff tag old.files new.files
  flushDiff old.files new.files
  writeFileAtomic (pearLoc ++ ["manifest.tmp".toList]) (pearLoc ++ ["manifest.json".toList])
    (encode commit)
  let writes := (diff old.files new.files).added ++ (diff old.files new.files).changed
  let deletes := (diff old.files new.files).deleted
  return {
    written := writes.filter (!isGitPath ·) ++ writes.filter (isGitPath ·)
    deleted := deletes.filter (!isGitPath ·) ++ deletes.filter (isGitPath ·) }

/-! ## Conflict copies -/

/-- Prepare the place of a conflict copy (`conflict_dest`). -/
def conflictDest (copy : ConflictCopy) : DiskProg Unit := do
  ensureRealAncestors (loc copy.copyPath)
  must (.mkdirAll (loc copy.copyPath).dropLast)
  if copy.localOnly then must (.setPrivateDir (loc localConflictDir)) else pure ()

/-- Copy the local loser's bytes to its conflict copy and make it durable (`copy_local_loser`). -/
def copyLocalLoser (copy : ConflictCopy) : DiskProg Unit := do
  conflictDest copy
  must (.copy (loc copy.path) (loc copy.copyPath))
  must (.setFileMtime (loc copy.copyPath) copy.entry.mtime)
  must (.sync (loc copy.copyPath))
  ignore (.sync (loc copy.copyPath).dropLast)

/-- Assemble a remote loser that must not enter the tree (`assemble_local_copy`). -/
def assembleLocalCopy (copy : ConflictCopy) : DiskProg Unit := do
  conflictDest copy
  must (.createPrivate (loc copy.copyPath))
  appendChunks (loc copy.copyPath) copy.copyPath copy.entry.chunks
  must (.sync (loc copy.copyPath))
  ignore (.sync (loc copy.copyPath).dropLast)

/-- What a conflict copy needs before the apply. -/
def preserve (copy : ConflictCopy) : DiskProg Unit :=
  match copy.localOnly, copy.side with
  | true, .localSide => copyLocalLoser copy
  | true, .remoteSide => assembleLocalCopy copy
  | false, .localSide => copyLocalLoser copy
  -- An ordinary remote loser is assembled by the apply.
  | false, .remoteSide => pure ()

/-- What a materialization reports. -/
structure Materialized where
  written : List Text := []
  deleted : List Text := []
  conflictCopies : List Text := []
deriving DecidableEq

/-- Put the merge on disk: the conflict copies first, then the apply (`materialize`). -/
def materialize (lower tag : Text → Text) (encode : Manifest → Bytes)
    (localManifest prePushBase : Manifest) (out : MergeOutcome) : DiskProg Materialized := do
  forM out.conflicts preserve
  let old := { localManifest with files := onDisk localManifest.files out.conflicts }
  let copies := out.conflicts.map (·.copyPath)
  let d := diff old.files out.merged.files
  if d.added = [] ∧ d.changed = [] ∧ d.deleted = [] then
    return { conflictCopies := copies }
  else
    let report ← applyCommit lower tag encode old out.merged prePushBase
    return {
      written := report.written.filter (· ∉ copies)
      deleted := report.deleted
      conflictCopies := copies }

end Pear
