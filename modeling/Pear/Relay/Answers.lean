import Pear.Relay.Pool

/-!
# Answers of the chunk routes

The chunk requests and the commits of one user, one after the other, with their answers
(`routes.rs`), over the files of the pool, of which a power loss may have torn some (`store.rs`). A
write keeps a blob that is there, whatever it holds; a read removes one that does not hash to its
name.
-/

namespace Pear

open Relay

/-- A relay with the files of its pool. -/
structure PoolRelay where
  tables : Relay
  /-- The bytes in the file of a blob; of no meaning where the pool has no such blob. -/
  content : Text → Bytes
  /-- The ids of the rows of `snapshots`. -/
  snapshotIds : Std.ExtTreeMap Text (List Int) compare

/-- The status of an entry of `chunks/put_many`. -/
inductive PutStatus where
  | stored
  | present
  | error (reason : RelayError)
deriving DecidableEq

/-- An answer, with its status and body. -/
inductive PoolAnswer where
  | refused (e : RelayError)
  /-- "chunk {hash} not found" -/
  | chunkNotFound (hash : Text)
  | ok
  | bytes (body : Bytes)
  | missing (hashes : List Text)
  | results (results : List (Text × PutStatus))
  | frame (entries : List (Text × Bytes))
  | head (seq : Int) (hash : Text)
  | snapshot (id createdAt : Int)
deriving DecidableEq

/-- The requests of a user. A head is stored as the text that its request determines, and a snapshot
at the time of its request. -/
inductive PoolRequest where
  | putChunk (id hash : Text) (body : Bytes)
  | getChunk (id hash : Text)
  | chunksMissing (id : Text) (hashes : List Text)
  | putManyChunks (id : Text) (entries : List (Text × Bytes))
  | getManyChunks (id : Text) (hashes : List Text)
  | putHead (id : Text) (req : CommitRequest) (stored : Bytes)
  | createSnapshot (id : Text) (req : CommitRequest) (createdAt : Int)

/-- `GET_MANY_MAX_HASHES`. -/
def getManyMaxHashes : Nat := 128

namespace PoolRelay

/-! ## The files of the pool -/

/-- `LocalStore::put` of bytes that hash to their name: a blob that is there stays as it is. It says
whether it has written the blob. -/
def storePut (s : PoolRelay) (hash : Text) (body : Bytes) : PoolRelay × Bool :=
  if hash ∈ s.tables.blobs then (s, false)
  else ({ s with
    tables := s.tables.storePut hash
    content := Function.update s.content hash body }, true)

section
variable (blake3 : Bytes → Text) (s : PoolRelay) (user : Text)

/-- `LocalStore::get`: a file that does not hash to its name is removed. -/
def storeGet (hash : Text) : PoolRelay × Option Bytes :=
  if hash ∈ s.tables.blobs then
    if blake3 (s.content hash) = hash then (s, some (s.content hash))
    else ({ s with tables := { s.tables with blobs := s.tables.blobs.erase hash } }, none)
  else (s, none)

/-- `INSERT OR IGNORE INTO chunk_refs`. -/
def insertChunkRefs (id : Text) (hashes : List Text) : PoolRelay :=
  { s with tables := s.tables.insertChunkRefs id hashes }

/-! ## The routes -/

/-- `PUT /chunks/:hash`. -/
def putChunk (id hash : Text) (body : Bytes) : PoolRelay × PoolAnswer :=
  match s.tables.putChunk blake3 id (.user user) hash body with
  | .error e => (s, .refused e)
  | .ok _ => ((s.storePut hash body).1.insertChunkRefs id [hash], .ok)

/-- The read of a chunk, past the checks. -/
def readChunk (hash : Text) : PoolRelay × PoolAnswer :=
  match s.storeGet blake3 hash with
  | (s', some body) => (s', .bytes body)
  | (s', none) => (s', .chunkNotFound hash)

/-- `GET /chunks/:hash`. -/
def getChunk (id hash : Text) : PoolRelay × PoolAnswer :=
  if isChunkHash hash = false then (s, .refused (.badHash hash))
  else match s.tables.access.requireRole id (.user user) .reader with
    | .error e => (s, .refused e)
    | .ok _ =>
      if s.tables.visible hash (.user user) = false then (s, .chunkNotFound hash)
      else s.readChunk blake3 hash

/-- `POST /chunks/missing`. -/
def chunksMissing (id : Text) (hashes : List Text) : PoolRelay × PoolAnswer :=
  match s.tables.chunksMissing id (.user user) hashes with
  | .error e => (s, .refused e)
  | .ok _ => (s, .missing (hashes.filter fun h =>
      !decide (h ∈ s.tables.blobs) || !s.tables.visible h (.user user)))

/-- The state of the loop over the entries of an upload. -/
structure Batch where
  relay : PoolRelay
  confirmed : List Text
  results : List (Text × PutStatus)

/-- One entry of an upload. -/
def Batch.put (b : Batch) (entry : Text × Bytes) : Batch :=
  match checkEntry blake3 entry.1 entry.2 with
  | .error e => { b with results := b.results ++ [(entry.1, .error e)] }
  | .ok _ =>
    let (relay, stored) := b.relay.storePut entry.1 entry.2
    { relay
      confirmed := entry.1 :: b.confirmed
      results := b.results ++ [(entry.1, if stored then .stored else .present)] }

/-- `POST /chunks/put_many`. -/
def putManyChunks (id : Text) (entries : List (Text × Bytes)) : PoolRelay × PoolAnswer :=
  match s.tables.putManyChunks id (.user user) entries with
  | .error e => (s, .refused e)
  | .ok _ =>
    let b := entries.foldl (Batch.put blake3) ⟨s, [], []⟩
    (b.relay.insertChunkRefs id b.confirmed, .results b.results)

/-- The reads of `chunks/get_many`; the first chunk that is not there ends them. -/
def readEach : PoolRelay → List Text → List (Text × Bytes) → PoolRelay × PoolAnswer
  | s, [], entries => (s, .frame entries)
  | s, hash :: hashes, entries =>
    match s.storeGet blake3 hash with
    | (s', some body) => readEach s' hashes (entries ++ [(hash, body)])
    | (s', none) => (s', .chunkNotFound hash)

/-- The checks of `chunks/get_many`. -/
def checkGetMany (id : Text) (hashes : List Text) : Except RelayError RelayWorkspace := do
  refuseIf (getManyMaxHashes < hashes.length) .batchTooBig
  forM hashes fun hash => refuseIf (isChunkHash hash = false) (.badHash hash)
  s.tables.access.requireRole id (.user user) .reader

/-- `POST /chunks/get_many`: one chunk that the user cannot see fails the request. -/
def getManyChunks (id : Text) (hashes : List Text) : PoolRelay × PoolAnswer :=
  match s.checkGetMany user id hashes with
  | .error e => (s, .refused e)
  | .ok _ =>
    match hashes.find? fun h => !s.tables.visible h (.user user) with
    | some hash => (s, .chunkNotFound hash)
    | none => readEach blake3 s hashes []

/-- `PUT /head`, which answers with the new row's number and the hash of what it stores. -/
def putHead (id : Text) (req : CommitRequest) (stored : Bytes) : PoolRelay × PoolAnswer :=
  match s.tables.putHead id (.user user) req with
  | .error e => (s, .refused e)
  | .ok tables => ({ s with tables }, .head (s.tables.currentSeq id + 1) (blake3 stored))

/-- `SELECT COALESCE(MAX(id), 0) + 1 FROM snapshots WHERE workspace_id = …`. -/
def nextSnapshot (id : Text) : Int := ((s.snapshotIds[id]?.getD []).max?.getD 0) + 1

/-- `POST /snapshots`. -/
def createSnapshot (id : Text) (req : CommitRequest) (createdAt : Int) : PoolRelay × PoolAnswer :=
  match s.tables.createSnapshot id (.user user) req with
  | .error e => (s, .refused e)
  | .ok tables =>
    let ids := s.nextSnapshot id :: s.snapshotIds[id]?.getD []
    ({ s with tables, snapshotIds := s.snapshotIds.insert id ids },
      .snapshot (s.nextSnapshot id) createdAt)

/-- A request with its answer. -/
def serve : PoolRequest → PoolRelay × PoolAnswer
  | .putChunk id hash body => s.putChunk blake3 user id hash body
  | .getChunk id hash => s.getChunk blake3 user id hash
  | .chunksMissing id hashes => s.chunksMissing user id hashes
  | .putManyChunks id entries => s.putManyChunks blake3 user id entries
  | .getManyChunks id hashes => s.getManyChunks blake3 user id hashes
  | .putHead id req stored => s.putHead blake3 user id req stored
  | .createSnapshot id req createdAt => s.createSnapshot user id req createdAt

/-- The answers to one request after the other. -/
def answers : PoolRelay → List PoolRequest → List PoolAnswer
  | _, [] => []
  | s, r :: rs => (s.serve blake3 user r).2 :: answers (s.serve blake3 user r).1 rs

/-! ## What the store tells -/

/-- What the store tells about a blob: whether it is there, and what a read of it gives. -/
def look (hash : Text) : Option (Option Bytes) :=
  if hash ∈ s.tables.blobs then
    some (if blake3 (s.content hash) = hash then some (s.content hash) else none)
  else none

end

end PoolRelay

section
variable {blake3 : Bytes → Text} {user id hash : Text} {s : PoolRelay}

/-! ## Reads and writes of the store -/

/-- A blob is there where a look finds one. -/
theorem PoolRelay.isSome_look (s : PoolRelay) (hash : Text) :
    (s.look blake3 hash).isSome = decide (hash ∈ s.tables.blobs) := by
  unfold PoolRelay.look
  split <;> simp_all

/-- What a write says. -/
theorem PoolRelay.storePut_written (s : PoolRelay) (body : Bytes) :
    (s.storePut hash body).2 = (s.look blake3 hash).isNone := by
  unfold PoolRelay.storePut PoolRelay.look
  split <;> rfl

/-- The store after a write of a chunk: what was there stays. -/
theorem PoolRelay.look_storePut (s : PoolRelay) {body : Bytes} (hbody : blake3 body = hash)
    (x : Text) : (s.storePut hash body).1.look blake3 x =
      if x = hash then some ((s.look blake3 hash).getD (some body)) else s.look blake3 x := by
  unfold PoolRelay.storePut
  by_cases hb : hash ∈ s.tables.blobs
  · rw [if_pos hb]
    split
    · rename_i hx
      subst hx
      simp only [PoolRelay.look, if_pos hb, Option.getD_some]
    · rfl
  · rw [if_neg hb]
    have hmem : x ∈ (s.tables.storePut hash).blobs ↔ x = hash ∨ x ∈ s.tables.blobs := by
      unfold Relay.storePut
      rw [if_neg hb, Std.ExtTreeMap.mem_insert, Std.LawfulEqCmp.compare_eq_iff_eq, eq_comm]
    simp only [PoolRelay.look, hmem]
    by_cases hx : x = hash
    · subst hx
      simp [hb, hbody]
    · simp only [hx, false_or, if_false, Function.update_of_ne hx]

/-- What a read gives. -/
theorem PoolRelay.storeGet_read (s : PoolRelay) (hash : Text) :
    (s.storeGet blake3 hash).2 = (s.look blake3 hash).join := by
  unfold PoolRelay.storeGet PoolRelay.look
  split
  · split <;> rfl
  · rfl

/-- The store after a read: a torn blob is gone. -/
theorem PoolRelay.look_storeGet (s : PoolRelay) (hash x : Text) :
    (s.storeGet blake3 hash).1.look blake3 x =
      if x = hash ∧ s.look blake3 hash = some none then none else s.look blake3 x := by
  unfold PoolRelay.storeGet
  by_cases hb : hash ∈ s.tables.blobs
  · by_cases ht : blake3 (s.content hash) = hash
    · have hlook : s.look blake3 hash = some (some (s.content hash)) := by
        unfold PoolRelay.look
        rw [if_pos hb, if_pos ht]
      simp [hb, ht, hlook]
    · have hlook : s.look blake3 hash = some none := by
        unfold PoolRelay.look
        rw [if_pos hb, if_neg ht]
      simp only [if_pos hb, if_neg ht, and_true, PoolRelay.look, Std.ExtTreeMap.mem_erase,
        ne_eq, Std.LawfulEqCmp.compare_eq_iff_eq]
      by_cases hx : x = hash
      · subst hx
        simp
      · simp [hx, Ne.symm hx]
  · have hlook : s.look blake3 hash = none := by
      unfold PoolRelay.look
      rw [if_neg hb]
    simp [hb, hlook]

/-! ## The gates -/

/-- Without a role there is no workspace. -/
theorem Access.requireRole_of_not_reads {a : Access} {id user : Text} {min : Role}
    (h : a.reads id user = false) : a.requireRole id (.user user) min = .error (.notFound id) := by
  unfold Access.reads at h
  unfold Access.requireRole
  cases hw : a.workspaces[id]? with
  | none => rfl
  | some ws =>
    simp only [hw, Bool.or_eq_false_iff, decide_eq_false_iff_not, Option.isSome_eq_false_iff,
      Option.isNone_iff_eq_none] at h
    simp only [Access.roleOn, h.1, h.2, if_false]

/-- Whoever passes a gate reads the workspace. -/
theorem Access.reads_of_requireRole {a : Access} {id user : Text} {min : Role} {ws : RelayWorkspace}
    (h : a.requireRole id (.user user) min = .ok ws) : a.reads id user = true := by
  cases hr : a.reads id user with
  | true => rfl
  | false =>
    rw [Access.requireRole_of_not_reads hr] at h
    cases h

theorem Access.isWriter_iff {a : Access} {p : Principal} :
    a.isWriter id p = true ↔ ∃ ws, a.requireRole id p .writer = .ok ws := by
  unfold Access.isWriter
  cases a.requireRole id p .writer <;> simp

/-- Who passes a gate passes the lower ones. -/
theorem Access.requireRole_mono {a : Access} {p : Principal} {min min' : Role} {ws : RelayWorkspace}
    (h : a.requireRole id p min = .ok ws) (hle : min'.rank ≤ min.rank) :
    a.requireRole id p min' = .ok ws := by
  unfold Access.requireRole at h ⊢
  cases hw : a.workspaces[id]? with
  | none => simp [hw] at h
  | some ws' =>
    cases hr : a.roleOn ws' p with
    | none => simp [hw, hr] at h
    | some role =>
      simp only [hw, hr] at h ⊢
      split at h
      · cases h
      · rw [if_neg (by omega)]
        exact h

/-! ## Commits -/

/-- The checks of `PUT /head`; what passes them is the chunks of the commit. -/
def Relay.checkHead (r : Relay) (id : Text) (p : Principal) (req : CommitRequest) :
    Except RelayError (List Text) := do
  let ws ← r.access.requireRole id p .writer
  let some device := req.device | throw .missingDevice
  refuseIf (validName device = false) (.badDevice device)
  let chunks ← r.validateCommit ws id p req
  refuseIf (req.baseSeq ≠ r.currentSeq id) (.headConflict (r.currentSeq id))
  return chunks

/-- The checks of `POST /snapshots`. -/
def Relay.checkSnapshot (r : Relay) (id : Text) (p : Principal) (req : CommitRequest) :
    Except RelayError (List Text) := do
  let ws ← r.access.requireRole id p .writer
  req.name.forM fun name => refuseIf (validName name = false) (.badName name)
  let some device := req.device | throw .missingDevice
  refuseIf (validName device = false) (.badDevice device)
  r.validateCommit ws id p req

theorem Relay.putHead_eq (r : Relay) (p : Principal) (req : CommitRequest) : r.putHead id p req =
    (r.checkHead id p req).map (r.insertHead id (r.currentSeq id + 1)) := by
  unfold Relay.putHead Relay.checkHead
  cases r.access.requireRole id p .writer with
  | error e => rfl
  | ok ws =>
    cases req.device with
    | none => rfl
    | some device =>
      simp only [bind, Except.bind]
      cases refuseIf (validName device = false) (RelayError.badDevice device) with
      | error e => rfl
      | ok _ =>
        cases r.validateCommit ws id p req with
        | error e => rfl
        | ok chunks =>
          dsimp only
          cases refuseIf (req.baseSeq ≠ r.currentSeq id) (RelayError.headConflict (r.currentSeq id)) with
          | error e => rfl
          | ok _ => rfl

theorem Relay.createSnapshot_eq (r : Relay) (p : Principal) (req : CommitRequest) :
    r.createSnapshot id p req = (r.checkSnapshot id p req).map (r.insertSnapshot id) := by
  unfold Relay.createSnapshot Relay.checkSnapshot
  cases r.access.requireRole id p .writer with
  | error e => rfl
  | ok ws =>
    simp only [bind, Except.bind]
    cases req.name.forM fun name => refuseIf (validName name = false) (RelayError.badName name) with
    | error e => rfl
    | ok _ =>
      cases req.device with
      | none => rfl
      | some device =>
        dsimp only
        cases refuseIf (validName device = false) (RelayError.badDevice device) with
        | error e => rfl
        | ok _ =>
          dsimp only
          cases r.validateCommit ws id p req with
          | error e => rfl
          | ok chunks => rfl

/-- What passes the checks of a head: the user writes the workspace and sees the chunks. -/
theorem Relay.of_checkHead {r : Relay} {req : CommitRequest} {chunks : List Text}
    (h : r.checkHead id (.user user) req = .ok chunks) : r.access.isWriter id (.user user) = true ∧
      ∀ x ∈ chunks, r.visible x (.user user) = true := by
  unfold Relay.checkHead at h
  obtain ⟨ws, hws, h⟩ := bind_eq_ok_iff.mp h
  refine ⟨by simp only [Access.isWriter, hws], ?_⟩
  split at h
  · obtain ⟨_, -, h⟩ := bind_eq_ok_iff.mp h
    obtain ⟨chunks', hchunks, h⟩ := bind_eq_ok_iff.mp h
    obtain ⟨_, -, h⟩ := bind_eq_ok_iff.mp h
    cases h
    exact fun x hx => ((validateCommit_chunks hchunks).2 x hx).2
  · cases h

/-- And of a snapshot. -/
theorem Relay.of_checkSnapshot {r : Relay} {req : CommitRequest} {chunks : List Text}
    (h : r.checkSnapshot id (.user user) req = .ok chunks) :
    r.access.isWriter id (.user user) = true ∧ ∀ x ∈ chunks, r.visible x (.user user) = true := by
  unfold Relay.checkSnapshot at h
  obtain ⟨ws, hws, h⟩ := bind_eq_ok_iff.mp h
  refine ⟨by simp only [Access.isWriter, hws], ?_⟩
  obtain ⟨_, -, h⟩ := bind_eq_ok_iff.mp h
  split at h
  · obtain ⟨_, -, h⟩ := bind_eq_ok_iff.mp h
    exact fun x hx => ((validateCommit_chunks h).2 x hx).2
  · cases h

/-! ## Uploads -/

/-- What a valid entry is. -/
theorem Relay.checkEntry_eq_ok_iff {body : Bytes} : checkEntry blake3 hash body = .ok () ↔
    isChunkHash hash = true ∧ body.length ≤ maxChunkSize ∧ blake3 body = hash := by
  simp only [checkEntry, refuseIf_bind_eq_ok_iff, refuseIf_eq_ok_iff, Bool.not_eq_false, not_lt,
    not_not]

/-- An upload of one chunk passes when its entry is valid and the user writes the workspace. -/
theorem Relay.putChunk_passes_iff {r : Relay} {p : Principal} {body : Bytes} :
    (∃ f, r.putChunk blake3 id p hash body = .ok f) ↔
      checkEntry blake3 hash body = .ok () ∧ r.access.isWriter id p = true := by
  rw [checkEntry_eq_ok_iff, Access.isWriter_iff]
  unfold Relay.putChunk
  simp only [refuseIf_bind_eq_ok_iff, Bool.not_eq_false, not_lt]
  constructor
  · rintro ⟨f, hhex, hlen, h⟩
    obtain ⟨ws, hws, h⟩ := bind_eq_ok_iff.mp h
    obtain ⟨hbody, -⟩ := refuseIf_bind_eq_ok_iff.mp h
    exact ⟨⟨hhex, hlen, not_not.mp hbody⟩, ws, hws⟩
  · rintro ⟨⟨hhex, hlen, hbody⟩, ws, hws⟩
    exact ⟨_, hhex, hlen, bind_eq_ok_iff.mpr
      ⟨ws, hws, refuseIf_bind_eq_ok_iff.mpr ⟨not_not.mpr hbody, rfl⟩⟩⟩

/-- A batch passes when it is within the caps and the user writes the workspace. -/
theorem Relay.putManyChunks_passes_iff {r : Relay} {p : Principal} {entries : List (Text × Bytes)} :
    (∃ f, r.putManyChunks id p entries = .ok f) ↔
      (entries.length ≤ putManyMaxEntries ∧ (entries.map (·.2.length)).sum ≤ putManyMaxBytes) ∧
        r.access.isWriter id p = true := by
  rw [Access.isWriter_iff]
  unfold Relay.putManyChunks
  simp only [refuseIf_bind_eq_ok_iff, not_lt]
  constructor
  · rintro ⟨f, hcount, hbytes, h⟩
    obtain ⟨ws, hws, -⟩ := bind_eq_ok_iff.mp h
    exact ⟨⟨hcount, hbytes⟩, ws, hws⟩
  · rintro ⟨⟨hcount, hbytes⟩, ws, hws⟩
    exact ⟨_, hcount, hbytes, bind_eq_ok_iff.mpr ⟨ws, hws, rfl⟩⟩

/-- An upload that passes. -/
theorem PoolRelay.putChunk_passed {body : Bytes} (hok : checkEntry blake3 hash body = .ok ())
    (hw : s.tables.access.isWriter id (.user user) = true) :
    s.putChunk blake3 user id hash body =
      ((s.storePut hash body).1.insertChunkRefs id [hash], .ok) := by
  obtain ⟨f, hf⟩ := putChunk_passes_iff.mpr ⟨hok, hw⟩
  unfold PoolRelay.putChunk
  rw [hf]

/-- A batch of one chunk that passes: its status is whether the chunk was there. -/
theorem PoolRelay.putManyChunks_passed {body : Bytes} (hok : checkEntry blake3 hash body = .ok ())
    (hw : s.tables.access.isWriter id (.user user) = true) :
    s.putManyChunks blake3 user id [(hash, body)] =
      ((s.storePut hash body).1.insertChunkRefs id [hash],
        .results [(hash, if (s.look blake3 hash).isNone then .stored else .present)]) := by
  have hlen : body.length ≤ maxChunkSize := (checkEntry_eq_ok_iff.mp hok).2.1
  have hcaps : [(hash, body)].length ≤ putManyMaxEntries ∧
      ([(hash, body)].map (·.2.length)).sum ≤ putManyMaxBytes := by
    constructor
    · simp [putManyMaxEntries]
    · unfold maxChunkSize at hlen
      unfold putManyMaxBytes
      simp only [List.map_cons, List.map_nil, List.sum_cons, List.sum_nil]
      omega
  obtain ⟨f, hf⟩ := putManyChunks_passes_iff.mpr ⟨hcaps, hw⟩
  unfold PoolRelay.putManyChunks
  rw [hf, ← PoolRelay.storePut_written s body]
  simp only [List.foldl_cons, List.foldl_nil, PoolRelay.Batch.put, hok, List.nil_append]

/-- The writer of a workspace reads a chunk that it references. -/
theorem PoolRelay.getChunk_answer (hhash : isChunkHash hash = true)
    (hw : s.tables.access.isWriter id (.user user) = true) (hrow : (id, hash) ∈ s.tables.refs) :
    (s.getChunk blake3 user id hash).2 = match (s.look blake3 hash).join with
      | some body => .bytes body
      | none => .chunkNotFound hash := by
  obtain ⟨ws, hws⟩ := Access.isWriter_iff.mp hw
  have hrole : s.tables.access.requireRole id (.user user) .reader = .ok ws :=
    Access.requireRole_mono hws (by decide)
  have hv : s.tables.visible hash (.user user) = true :=
    chunkVisibleTo_iff.mpr ⟨id, hrow, Access.reads_of_isWriter hw⟩
  unfold PoolRelay.getChunk PoolRelay.readChunk
  rw [← s.storeGet_read, hhash, hrole, hv]
  dsimp only
  rw [if_neg (by simp), if_neg (by simp)]
  split <;> simp_all

end

end Pear
