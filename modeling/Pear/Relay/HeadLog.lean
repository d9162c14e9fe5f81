import Pear.Relay.Pool
import Pear.Lib.Tx

/-!
# The head log

`PUT /head` down to its SQL: the checks of the request, the compare-and-swap against the newest row,
the flush of the pool, and the transaction that inserts the row, prunes the log and adds the row's
chunk references (`routes.rs`, `db.rs`). Each call may fail. `accepted` records the answers of the
requests that succeeded, oldest first; `HeadLogInv` says that the table is the newest part of it.
-/

namespace Pear

/-! ## The tables -/

/-- The `manifest` column: the submitted bytes of a plaintext commit, or the envelope of an encrypted
one (`e2e_stored_manifest`). -/
inductive StoredManifest where
  | plain (raw : Text)
  | e2e (chunkHashes : List Text) (manifestEnc : Text)
deriving DecidableEq

/-- A row of `heads`. -/
structure HeadRecord where
  workspace : Text
  seq : Int
  hash : Text
  manifest : StoredManifest
deriving DecidableEq

/-- The tables a head commit writes. -/
structure HeadTables where
  heads : List HeadRecord
  /-- `chunk_refs`: workspace and hash. -/
  chunkRefs : List (Text × Text)
deriving DecidableEq

namespace HeadTables

/-- The rows of a workspace. -/
def rows (db : HeadTables) (id : Text) : List HeadRecord := db.heads.filter (·.workspace = id)

/-- `SELECT … ORDER BY seq DESC LIMIT 1` (`current_head`). -/
def currentHead (db : HeadTables) (id : Text) : Option HeadRecord :=
  ((db.rows id).insertionSort fun a b => b.seq ≤ a.seq).head?

/-- `SELECT seq FROM heads … ORDER BY seq DESC LIMIT keep`. -/
def newest (db : HeadTables) (id : Text) (keep : Nat) : List Int :=
  (((db.rows id).map (·.seq)).insertionSort (· ≥ ·)).take keep

/-- `INSERT INTO heads`, whose key is the workspace and the sequence number. -/
def insertRow (row : HeadRecord) (db : HeadTables) : Option HeadTables :=
  if db.heads.any fun r => r.workspace = row.workspace && r.seq = row.seq then none
  else some { db with heads := row :: db.heads }

/-- `DELETE FROM heads … AND seq NOT IN (…)`. -/
def prune (id : Text) (db : HeadTables) : HeadTables :=
  { db with heads := db.heads.filter fun r => !(r.workspace = id && r.seq ∉ db.newest id headKeep) }

/-- `INSERT OR IGNORE INTO chunk_refs`. -/
def insertRef (id hash : Text) (db : HeadTables) : HeadTables :=
  { db with
    chunkRefs := if (id, hash) ∈ db.chunkRefs then db.chunkRefs else (id, hash) :: db.chunkRefs }

/-- The statements of `insert_head`. -/
def insertHead (row : HeadRecord) (refs : List Text) : List (HeadTables → Option HeadTables) :=
  insertRow row :: (some ∘ prune row.workspace) ::
    refs.map fun hash => some ∘ insertRef row.workspace hash

end HeadTables

/-! ## The request -/

/-- The encodings the relay reads, and the hash it names contents by. -/
structure HeadCodec where
  /-- `serde_json::from_str` -/
  parse : Text → Option Manifest
  /-- The length `base64_decode` gives. -/
  decodedLen : Text → Option Nat
  /-- BLAKE3 of the stored text. -/
  hash : StoredManifest → Text

/-- The body of `PUT /head`, with its device header. -/
structure HeadPutRequest where
  device : Option Text
  baseSeq : Int
  manifest : Option Text
  manifestEnc : Option Text
  chunkHashes : Option (List Text)

/-- The request as the trust boundary reads it. -/
def HeadPutRequest.commit (codec : HeadCodec) (req : HeadPutRequest) :
    Relay.CommitRequest where
  device := req.device
  name := none
  baseSeq := req.baseSeq
  manifest := req.manifest.map codec.parse
  manifestEnc := req.manifestEnc.map codec.decodedLen
  chunkHashes := req.chunkHashes

/-- What is stored of the request: its bytes, or the envelope with its hashes sorted. -/
def HeadPutRequest.stored (req : HeadPutRequest) : StoredManifest :=
  match req.manifestEnc with
  | some enc => .e2e (Std.ExtTreeSet.ofList (req.chunkHashes.getD []) compare).toList enc
  | none => .plain (req.manifest.getD [])

/-- The row a request adds under a sequence number. -/
def HeadPutRequest.row (codec : HeadCodec) (req : HeadPutRequest) (id : Text) (seq : Int) :
    HeadRecord where
  workspace := id
  seq := seq
  hash := codec.hash req.stored
  manifest := req.stored

/-- The chunk list a stored row pins (`stored_row_chunks`). -/
def StoredManifest.chunks (codec : HeadCodec) : StoredManifest → Option (List Text)
  | .plain raw => (codec.parse raw).map Relay.chunkHashes
  | .e2e hashes _ => some hashes

/-- The relay as far as head commits go: the connection to its database, who may do what, and the
chunk pool. -/
structure HeadServer where
  conn : Lib.Conn HeadTables
  access : Access
  blobs : Std.ExtTreeMap Text Int compare

/-- What the trust boundary of a commit sees of the relay. -/
def HeadServer.relay (s : HeadServer) : Relay :=
  .boot s.access ∅ ∅ s.conn.disk.chunkRefs s.blobs 0

/-- A successful answer. -/
structure HeadPutResponse where
  seq : Int
  hash : Text
deriving DecidableEq

/-- The calls of a request that fail. -/
structure HeadFault where
  /-- `store.flush` -/
  flush : Bool := false
  tx : Option Lib.Conn.Fault := none
deriving DecidableEq

/-- Why a request fails. -/
inductive HeadError where
  | refused (e : RelayError)
  | internal
deriving DecidableEq

namespace HeadServer

/-- The checks of `put_head` up to the compare-and-swap: the current sequence number and the chunks
the commit references. -/
def checkHead (codec : HeadCodec) (s : HeadServer) (id : Text) (p : Principal)
    (req : HeadPutRequest) : Except RelayError (Int × List Text) := do
  let ws ← s.access.requireRole id p .writer
  let some device := req.device | throw .missingDevice
  refuseIf (Relay.validName device = false) (.badDevice device)
  let refs ← s.relay.validateCommit ws id p (req.commit codec)
  let current := ((s.conn.disk.currentHead id).map (·.seq)).getD 0
  refuseIf (req.baseSeq ≠ current) (.headConflict current)
  return (current, refs)

/-- `PUT /head`. -/
def putHead (codec : HeadCodec) (s : HeadServer) (id : Text) (p : Principal) (req : HeadPutRequest)
    (fault : HeadFault) : Except HeadError HeadPutResponse × HeadServer :=
  match s.checkHead codec id p req with
  | .error e => (.error (.refused e), s)
  | .ok (current, refs) =>
    let row := req.row codec id (current + 1)
    -- The pool is flushed before the row commits, and a failed flush fails the commit.
    if fault.flush then (.error .internal, s)
    else match s.conn.withTx (HeadTables.insertHead row refs) fault.tx with
      | (true, conn) => (.ok { seq := row.seq, hash := row.hash }, { s with conn })
      | (false, conn) => (.error .internal, { s with conn })

end HeadServer

/-! ## The system -/

/-- An accepted commit. -/
structure HeadCommit where
  workspace : Text
  baseSeq : Int
  seq : Int
  hash : Text
  manifest : StoredManifest
deriving DecidableEq

/-- The row of a commit. -/
def HeadCommit.row (c : HeadCommit) : HeadRecord :=
  { workspace := c.workspace, seq := c.seq, hash := c.hash, manifest := c.manifest }

/-- The relay with the commits it has accepted, oldest first. -/
structure HeadSystem where
  server : HeadServer
  accepted : List HeadCommit

/-- What can happen: a request, with the calls of it that fail, and what other requests do to the
roles, the pool and the chunk references. -/
inductive HeadEvent where
  | put (id : Text) (p : Principal) (req : HeadPutRequest) (fault : HeadFault)
  | access (a : Access)
  | pool (blobs : Std.ExtTreeMap Text Int compare)
  | upload (id hash : Text)

/-- The accepted commits of a workspace. -/
def HeadSystem.log (s : HeadSystem) (id : Text) : List HeadCommit :=
  s.accepted.filter (·.workspace = id)

/-- The relay after a request. -/
def HeadSystem.put (codec : HeadCodec) (s : HeadSystem) (id : Text) (p : Principal)
    (req : HeadPutRequest) (fault : HeadFault) : HeadSystem :=
  match s.server.putHead codec id p req fault with
  | (.ok answer, server) =>
    let commit : HeadCommit :=
      { workspace := id, baseSeq := req.baseSeq, seq := answer.seq, hash := answer.hash,
        manifest := req.stored }
    { server, accepted := s.accepted ++ [commit] }
  | (.error _, server) => { s with server }

/-- One step. The database lock makes each request one step. -/
def HeadSystem.step (codec : HeadCodec) (s : HeadSystem) : HeadEvent → Option HeadSystem
  | .put id p req fault => some (s.put codec id p req fault)
  | .access a => some { s with server := { s.server with access := a } }
  | .pool blobs => some { s with server := { s.server with blobs } }
  | .upload id hash =>
    let conn := { s.server.conn with disk := s.server.conn.disk.insertRef id hash }
    some { s with server := { s.server with conn } }

/-- A relay with an empty head log. -/
def HeadSystem.boot (access : Access) (blobs : Std.ExtTreeMap Text Int compare)
    (chunkRefs : List (Text × Text)) : HeadSystem where
  server := { conn := { disk := { heads := [], chunkRefs }, tx := none }, access, blobs }
  accepted := []

/-! ## What the statements do -/

namespace HeadTables

variable {db db' : HeadTables} {row : HeadRecord} {refs : List Text} {id : Text}

/-- The rows of a workspace stand newest first. -/
def Descending (db : HeadTables) (id : Text) : Prop :=
  (db.rows id).Pairwise fun a b => b.seq < a.seq

/-- The newest row is the first one. -/
theorem currentHead_eq (h : db.Descending id) : db.currentHead id = (db.rows id).head? := by
  rw [currentHead, List.Pairwise.insertionSort_eq (h.imp Int.le_of_lt)]

/-- Pruning keeps the first rows of its workspace. -/
theorem rows_prune (h : db.Descending id) :
    (db.prune id).rows id = (db.rows id).take headKeep := by
  have hnewest : db.newest id headKeep = ((db.rows id).take headKeep).map (·.seq) := by
    rw [newest, List.Pairwise.insertionSort_eq (List.pairwise_map.mpr (h.imp Int.le_of_lt)),
      List.map_take]
  have hrows : (db.prune id).rows id = (db.rows id).filter fun r => r.seq ∈ db.newest id headKeep := by
    simp only [rows, prune, List.filter_filter]
    refine List.filter_congr fun r _ => ?_
    by_cases hw : r.workspace = id
    · simp [hw]
    · simp [hw]
  rw [hrows, hnewest]
  unfold Descending at h
  generalize db.rows id = rs at h
  generalize headKeep = n
  induction rs generalizing n with
  | nil => simp
  | cons r rs ih =>
    obtain ⟨hr, hrs⟩ := List.pairwise_cons.mp h
    cases n with
    | zero => simp
    | succ n =>
      have hother : ∀ x ∈ rs, x.seq ≠ r.seq := fun x hx => (hr x hx).ne
      have hfilter : rs.filter (fun x => decide (x.seq ∈ r.seq :: (rs.take n).map (·.seq))) =
          rs.filter fun x => decide (x.seq ∈ (rs.take n).map (·.seq)) := by
        refine List.filter_congr fun x hx => ?_
        simp [hother x hx]
      rw [List.take_succ_cons, List.map_cons, List.filter_cons_of_pos (by simp), hfilter, ih hrs n]

/-- It leaves the rows of the others alone. -/
theorem rows_prune_ne {id' : Text} (hne : id' ≠ id) : (db.prune id).rows id' = db.rows id' := by
  simp only [rows, prune, List.filter_filter]
  refine List.filter_congr fun r _ => ?_
  by_cases hw : r.workspace = id'
  · simp [hw, hne]
  · simp [hw]

/-- The rows of `chunk_refs` after an insert. -/
theorem mem_insertRef {hash : Text} {x : Text × Text} :
    x ∈ (db.insertRef id hash).chunkRefs ↔ x ∈ db.chunkRefs ∨ x = (id, hash) := by
  unfold insertRef
  dsimp only
  split
  · rename_i hin
    constructor
    · exact .inl
    · rintro (hx | rfl)
      · exact hx
      · exact hin
  · rw [List.mem_cons, or_comm]

/-- The inserts of a commit's references. -/
theorem foldlM_insertRef (id : Text) (refs : List Text) : ∀ db : HeadTables, ∃ chunkRefs,
    (refs.map fun hash => some ∘ insertRef id hash).foldlM (fun db stmt => stmt db) db =
        some { db with chunkRefs } ∧
      ∀ x, x ∈ chunkRefs ↔ x ∈ db.chunkRefs ∨ x.1 = id ∧ x.2 ∈ refs := by
  induction refs with
  | nil => exact fun db => ⟨db.chunkRefs, rfl, fun x => by simp⟩
  | cons hash refs ih =>
    intro db
    obtain ⟨chunkRefs, hrun, hmem⟩ := ih (db.insertRef id hash)
    refine ⟨chunkRefs, hrun, fun x => ?_⟩
    obtain ⟨ws, h⟩ := x
    rw [hmem, mem_insertRef, List.mem_cons, Prod.mk.injEq]
    tauto

/-- **What `insert_head` does**: the row, the pruned log and the references. -/
theorem foldlM_insertHead
    (h : (insertHead row refs).foldlM (fun db stmt => stmt db) db = some db') :
    db'.heads = (prune row.workspace { db with heads := row :: db.heads }).heads ∧
      ∀ x, x ∈ db'.chunkRefs ↔ x ∈ db.chunkRefs ∨ x.1 = row.workspace ∧ x.2 ∈ refs := by
  obtain ⟨db₁, hrow, h⟩ := Option.bind_eq_some_iff.mp h
  have hrow : insertRow row db = some db₁ := hrow
  unfold insertRow at hrow
  split at hrow
  · cases hrow
  cases hrow
  obtain ⟨chunkRefs, hrun, hmem⟩ := foldlM_insertRef row.workspace refs
    (prune row.workspace { db with heads := row :: db.heads })
  obtain rfl := Option.some.inj (hrun.symm.trans h)
  exact ⟨rfl, hmem⟩

end HeadTables

/-! ## The log and its table -/

/-- What holds of every reachable relay: no transaction is open, the commits of a workspace are
numbered from one, each on top of the one before, its rows are the newest of them, and their chunks
are referenced. -/
structure HeadLogInv (codec : HeadCodec) (s : HeadSystem) : Prop where
  closed : s.server.conn.tx = none
  numbered : ∀ (id : Text) (i : Nat) (c : HeadCommit), (s.log id)[i]? = some c →
    c.seq = i + 1 ∧ c.baseSeq = i
  rows : ∀ id, s.server.conn.disk.rows id = ((s.log id).reverse.take headKeep).map (·.row)
  refs : ∀ c ∈ s.accepted, ∀ chunks, c.manifest.chunks codec = some chunks → ∀ h ∈ chunks,
    (c.workspace, h) ∈ s.server.conn.disk.chunkRefs

section
variable {codec : HeadCodec} {s s' : HeadSystem} {id : Text} {p : Principal}
  {req : HeadPutRequest} {fault : HeadFault}

/-- The rows of such a relay stand newest first. -/
theorem HeadLogInv.descending (h : HeadLogInv codec s) (id : Text) :
    s.server.conn.disk.Descending id := by
  unfold HeadTables.Descending
  rw [h.rows id]
  have hlog : (s.log id).Pairwise fun a b => a.seq < b.seq := by
    refine List.pairwise_iff_getElem.mpr fun i j hi hj hij => ?_
    rw [(h.numbered id i _ (List.getElem?_eq_getElem hi)).1,
      (h.numbered id j _ (List.getElem?_eq_getElem hj)).1]
    omega
  exact List.pairwise_map.mpr ((List.pairwise_reverse.mpr hlog).sublist (List.take_sublist _ _))

/-- Its current sequence number is the number of commits. -/
theorem HeadLogInv.current (h : HeadLogInv codec s) (id : Text) :
    ((s.server.conn.disk.currentHead id).map (·.seq)).getD 0 = (s.log id).length := by
  rw [HeadTables.currentHead_eq (h.descending id), h.rows id]
  cases hlog : (s.log id).reverse with
  | nil =>
    have hnil : s.log id = [] := List.reverse_eq_nil_iff.mp hlog
    simp [hnil]
  | cons c cs =>
    have hsplit : s.log id = cs.reverse ++ [c] := by
      rw [← List.reverse_cons, ← hlog, List.reverse_reverse]
    have hc := (h.numbered id cs.length c (by simp [hsplit])).1
    simp [hsplit, headKeep, HeadCommit.row, hc]

/-- What a commit pins is among the chunks its trust boundary lets through. -/
theorem HeadServer.chunks_of_check {s : HeadServer} {current : Int} {refs chunks : List Text}
    (h : s.checkHead codec id p req = .ok (current, refs))
    (hc : req.stored.chunks codec = some chunks) : ∀ x ∈ chunks, x ∈ refs := by
  unfold checkHead at h
  obtain ⟨ws, -, h⟩ := bind_eq_ok_iff.mp h
  split at h
  · obtain ⟨_, -, h⟩ := bind_eq_ok_iff.mp h
    obtain ⟨refs', hv, h⟩ := bind_eq_ok_iff.mp h
    obtain ⟨_, -, h⟩ := bind_eq_ok_iff.mp h
    cases h
    rw [(Relay.validateCommit_chunks hv).1]
    unfold HeadPutRequest.stored at hc
    unfold Relay.CommitRequest.chunks HeadPutRequest.commit
    cases henc : req.manifestEnc with
    | some enc =>
      simp only [henc, StoredManifest.chunks, Option.some.injEq] at hc
      subst hc
      intro x hx
      simpa [Std.ExtTreeSet.mem_toList, Std.ExtTreeSet.mem_ofList] using hx
    | none =>
      simp only [henc, StoredManifest.chunks] at hc
      cases hm : req.manifest with
      | none =>
        have hflavor : ws.e2e = false := by
          by_contra he
          simp [Relay.validateCommit, HeadPutRequest.commit, henc, refuseIf, he] at hv
          cases hv
        simp [Relay.validateCommit, HeadPutRequest.commit, henc, hm, refuseIf, hflavor] at hv
      | some raw =>
        simp only [hm, Option.getD_some] at hc
        obtain ⟨manifest, hparse, rfl⟩ := Option.map_eq_some_iff.mp hc
        intro x hx
        simpa [hparse] using hx
  · cases h

/-- The current sequence number a check has seen is the one the request is based on. -/
theorem HeadServer.base_of_check {s : HeadServer} {current : Int} {refs : List Text}
    (h : s.checkHead codec id p req = .ok (current, refs)) :
    current = ((s.conn.disk.currentHead id).map (·.seq)).getD 0 ∧ req.baseSeq = current := by
  unfold checkHead at h
  obtain ⟨_, -, h⟩ := bind_eq_ok_iff.mp h
  split at h
  · obtain ⟨_, -, h⟩ := bind_eq_ok_iff.mp h
    obtain ⟨_, -, h⟩ := bind_eq_ok_iff.mp h
    obtain ⟨_, hcas, h⟩ := bind_eq_ok_iff.mp h
    cases h
    exact ⟨rfl, not_not.mp (refuseIf_eq_ok_iff.mp hcas)⟩
  · cases h

/-- **A request does everything or nothing**: it fails and changes nothing, or it has passed the
checks, its row and references are committed, and its row is answered. -/
theorem HeadServer.putHead_cases {s : HeadServer} (hclosed : s.conn.tx = none) (codec : HeadCodec)
    (id : Text) (p : Principal) (req : HeadPutRequest) (fault : HeadFault) :
    (∃ e, s.putHead codec id p req fault = (.error e, s)) ∨
      ∃ current refs db,
        s.checkHead codec id p req = .ok (current, refs) ∧
        (HeadTables.insertHead (req.row codec id (current + 1)) refs).foldlM
          (fun db stmt => stmt db) s.conn.disk = some db ∧
        s.putHead codec id p req fault =
          (.ok { seq := current + 1, hash := codec.hash req.stored },
            { s with conn := { disk := db, tx := none } }) := by
  obtain ⟨⟨disk, tx⟩, access, blobs⟩ := s
  obtain rfl : tx = none := hclosed
  unfold putHead
  cases hc : checkHead codec ⟨⟨disk, none⟩, access, blobs⟩ id p req with
  | error e => exact .inl ⟨.refused e, rfl⟩
  | ok res =>
    obtain ⟨current, refs⟩ := res
    dsimp only
    cases hf : fault.flush with
    | true => exact .inl ⟨.internal, by simp⟩
    | false =>
      rcases Lib.Conn.withTx_cases (HeadTables.insertHead (req.row codec id (current + 1)) refs)
        fault.tx disk with hw | ⟨db, hall, hw⟩
      · exact .inl ⟨.internal, by simp [hw]⟩
      · refine .inr ⟨current, refs, db, rfl, hall, ?_⟩
        simp only [Bool.false_eq_true, if_false, hw]
        rfl

/-- **An accepted commit keeps the invariant.** -/
theorem HeadLogInv.accept (h : HeadLogInv codec s) {current : Int} {refs : List Text}
    {db : HeadTables} (hc : s.server.checkHead codec id p req = .ok (current, refs))
    (hdb : (HeadTables.insertHead (req.row codec id (current + 1)) refs).foldlM
      (fun db stmt => stmt db) s.server.conn.disk = some db) {c : HeadCommit}
    (hrow : c.row = req.row codec id (current + 1)) (hbase : c.baseSeq = req.baseSeq) :
    HeadLogInv codec
      { server := { s.server with conn := { disk := db, tx := none } }
        accepted := s.accepted ++ [c] } := by
  obtain ⟨hheads, hrefs⟩ := HeadTables.foldlM_insertHead hdb
  obtain ⟨hcur, hreq⟩ := HeadServer.base_of_check hc
  rw [h.current id] at hcur
  have hws : c.workspace = id := congrArg HeadRecord.workspace hrow
  have hseq : c.seq = current + 1 := congrArg HeadRecord.seq hrow
  have hman : c.manifest = req.stored := congrArg HeadRecord.manifest hrow
  have hlog : (s.accepted ++ [c]).filter (·.workspace = id) = s.log id ++ [c] := by
    rw [List.filter_append, List.filter_singleton]
    simp [hws, HeadSystem.log]
  have hlog' : ∀ id', id' ≠ id → (s.accepted ++ [c]).filter (·.workspace = id') = s.log id' := by
    intro id' hne
    rw [List.filter_append, List.filter_singleton]
    simp [hws, Ne.symm hne, HeadSystem.log]
  refine ⟨rfl, fun id' i c' hget => ?_, fun id' => ?_, fun c' hc' chunks hchunks x hx => ?_⟩
  · by_cases hid : id' = id
    · subst hid
      have hget : (s.log id' ++ [c])[i]? = some c' := hlog ▸ hget
      rcases Nat.lt_or_ge i (s.log id').length with hi | hi
      · exact h.numbered id' i c' (by rwa [List.getElem?_append_left hi] at hget)
      · have hi : i = (s.log id').length := by
          have := (List.getElem?_eq_some_iff.mp hget).1
          rw [List.length_append, List.length_singleton] at this
          omega
        subst hi
        rw [List.getElem?_append_right (le_refl _), Nat.sub_self] at hget
        obtain rfl : c = c' := by simpa using hget
        exact ⟨by rw [hseq, hcur], by rw [hbase, hreq, hcur]⟩
    · exact h.numbered id' i c' (by rw [← hlog' id' hid]; exact hget)
  · have hrows : ∀ id'', ({ s.server.conn.disk with heads := req.row codec id (current + 1) ::
        s.server.conn.disk.heads } : HeadTables).rows id'' =
        if id'' = id then c.row :: s.server.conn.disk.rows id else s.server.conn.disk.rows id'' := by
      intro id''
      unfold HeadTables.rows
      dsimp only
      by_cases hid : id'' = id
      · subst hid
        rw [if_pos rfl, List.filter_cons_of_pos (by simp [HeadPutRequest.row]), hrow]
      · rw [if_neg hid, List.filter_cons_of_neg (by simp [HeadPutRequest.row, Ne.symm hid])]
    have hdisk : db.rows id' = (HeadTables.prune id { s.server.conn.disk with
        heads := req.row codec id (current + 1) :: s.server.conn.disk.heads }).rows id' := by
      unfold HeadTables.rows
      rw [hheads]
      rfl
    refine hdisk.trans ?_
    unfold HeadSystem.log
    dsimp only
    by_cases hid : id' = id
    · subst hid
      rw [HeadTables.rows_prune, hrows, if_pos rfl, hlog, h.rows, List.reverse_append,
        List.reverse_singleton, List.singleton_append]
      · simp [headKeep, List.take_take]
      · unfold HeadTables.Descending
        rw [hrows, if_pos rfl]
        refine List.pairwise_cons.mpr ⟨fun r hr => ?_, h.descending id'⟩
        rw [h.rows id'] at hr
        obtain ⟨c', hc', rfl⟩ := List.mem_map.mp hr
        obtain ⟨i, hi, hget⟩ := List.mem_iff_getElem.mp
          (List.mem_reverse.mp (List.mem_of_mem_take hc'))
        have := (h.numbered id' i c' (hget ▸ List.getElem?_eq_getElem hi)).1
        dsimp only [HeadCommit.row]
        omega
    · rw [HeadTables.rows_prune_ne hid, hrows, if_neg hid, hlog' id' hid, h.rows]
  · rcases List.mem_append.mp hc' with hc' | hc'
    · exact (hrefs _).mpr (.inl (h.refs c' hc' chunks hchunks x hx))
    · obtain rfl := List.mem_singleton.mp hc'
      exact (hrefs _).mpr (.inr ⟨hws,
        HeadServer.chunks_of_check hc (hman ▸ hchunks) x hx⟩)

/-- **Every step keeps the invariant.** -/
theorem HeadLogInv.step (h : HeadLogInv codec s) {e : HeadEvent} (hs : s.step codec e = some s') :
    HeadLogInv codec s' := by
  cases e with
  | put id p req fault =>
    cases hs
    unfold HeadSystem.put
    rcases HeadServer.putHead_cases h.closed codec id p req fault with
      ⟨e, hput⟩ | ⟨current, refs, db, hc, hdb, hput⟩
    · rw [hput]
      exact h
    · rw [hput]
      exact h.accept hc hdb rfl rfl
  | access a =>
    cases hs
    exact ⟨h.closed, h.numbered, h.rows, h.refs⟩
  | pool blobs =>
    cases hs
    exact ⟨h.closed, h.numbered, h.rows, h.refs⟩
  | upload id hash =>
    cases hs
    exact ⟨h.closed, h.numbered, h.rows, fun c hc chunks hchunks x hx =>
      HeadTables.mem_insertRef.mpr (.inl (h.refs c hc chunks hchunks x hx))⟩

/-- A relay with an empty log is in order. -/
theorem headLogInv_boot (access : Access) (blobs : Std.ExtTreeMap Text Int compare)
    (chunkRefs : List (Text × Text)) : HeadLogInv codec (.boot access blobs chunkRefs) :=
  ⟨rfl, fun id i c hc => by simp [HeadSystem.log, HeadSystem.boot] at hc,
    fun id => by simp [HeadSystem.log, HeadSystem.boot, HeadTables.rows],
    fun c hc => by simp [HeadSystem.boot] at hc⟩

end

/-- **The head log is a gap-free chain.** However requests, their failures and other work
interleave: the accepted commits of a workspace are numbered 1, 2, 3, …, each based on the one before
it, so no two have one base; the table holds exactly the newest of them, with what was submitted; the
chunks of every row are referenced; and a request that fails changes no table. -/
theorem head_log_chain {codec : HeadCodec} {access : Access}
    {blobs : Std.ExtTreeMap Text Int compare} {chunkRefs : List (Text × Text)}
    {es : List HeadEvent} {s : HeadSystem}
    (run : Lib.Run (HeadSystem.step codec) (fun _ _ => True) (.boot access blobs chunkRefs) es s) :
    (∀ (id : Text) (i : Nat) (c : HeadCommit), (s.log id)[i]? = some c →
      c.seq = i + 1 ∧ c.baseSeq = i) ∧
    (∀ id, ((s.log id).map (·.baseSeq)).Nodup) ∧
    (∀ id, s.server.conn.disk.rows id = ((s.log id).reverse.take headKeep).map (·.row)) ∧
    (∀ id, ∀ r ∈ s.server.conn.disk.rows id, ∀ chunks, r.manifest.chunks codec = some chunks →
      ∀ h ∈ chunks, (id, h) ∈ s.server.conn.disk.chunkRefs) ∧
    ∀ id p req fault e, (s.server.putHead codec id p req fault).1 = .error e →
      (s.server.putHead codec id p req fault).2 = s.server := by
  have hinv : HeadLogInv codec s := run.invariant (fun _ _ _ hi _ hs => hi.step hs)
    (headLogInv_boot access blobs chunkRefs)
  refine ⟨hinv.numbered, fun id => ?_, hinv.rows, fun id r hr chunks hchunks h hh => ?_,
    fun id p req fault e he => ?_⟩
  · refine List.pairwise_map.mpr (List.pairwise_iff_getElem.mpr fun i j hi hj hij => ?_)
    rw [(hinv.numbered id i _ (List.getElem?_eq_getElem hi)).2,
      (hinv.numbered id j _ (List.getElem?_eq_getElem hj)).2]
    omega
  · rw [hinv.rows id] at hr
    obtain ⟨c, hc, rfl⟩ := List.mem_map.mp hr
    obtain ⟨hc, hws⟩ := List.mem_filter.mp (List.mem_reverse.mp (List.mem_of_mem_take hc))
    exact of_decide_eq_true hws ▸ hinv.refs c hc chunks hchunks h hh
  · rcases HeadServer.putHead_cases hinv.closed codec id p req fault with
      ⟨_, hput⟩ | ⟨_, _, _, -, -, hput⟩
    · rw [hput]
    · rw [hput] at he
      cases he

/-! ## A commit, a failed one and a stale one -/

/-- A codec that reads one manifest: a file of the empty chunk in the workspace `w`. -/
def testCodec : HeadCodec where
  parse _ := some { Manifest.new "w".toList with
    files := .ofList [("f".toList, ⟨0, 0o644, 1, 0, [Relay.emptyChunk]⟩)] compare }
  decodedLen _ := none
  hash _ := []

/-- A commit on top of a head. -/
def testPut (baseSeq : Int) (fault : HeadFault) : HeadEvent :=
  .put "w".toList (.user "u".toList)
    { device := some "d".toList, baseSeq, manifest := some "m".toList, manifestEnc := none,
      chunkHashes := none } fault

/-- Of four requests the one whose `COMMIT` fails and the one on an old base are not accepted. -/
theorem head_log_chain_two : ∃ s : HeadSystem,
    (s.log "w".toList).map (fun c => (c.seq, c.baseSeq)) = [(1, 0), (2, 1)] ∧
    (∀ (i : Nat) (c : HeadCommit), (s.log "w".toList)[i]? = some c → c.seq = i + 1 ∧ c.baseSeq = i) ∧
    s.server.conn.disk.rows "w".toList =
      ((s.log "w".toList).reverse.take headKeep).map (·.row) := by
  have hrun : ((Lib.replay (HeadSystem.step testCodec)
      (.boot Relay.testRelay.access (.ofList [(Relay.emptyChunk, 0)] compare) [])
      [.upload "w".toList Relay.emptyChunk, testPut 0 {}, testPut 1 { tx := some .commit },
        testPut 0 {}, testPut 1 {}]).map fun s =>
      (s.log "w".toList).map fun c => (c.seq, c.baseSeq)) = some [(1, 0), (2, 1)] := by
    decide
  obtain ⟨s, hs, hlog⟩ := Option.map_eq_some_iff.mp hrun
  obtain ⟨hnum, -, hrows, -⟩ := head_log_chain (Lib.Run.of_replay (fun _ _ _ => trivial) hs)
  exact ⟨s, hlog, hnum "w".toList, hrows "w".toList⟩

end Pear
