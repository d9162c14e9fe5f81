import Pear.Relay.Answers

/-!
# What the pool tells a user

Two relays that agree on each workspace the user reads (`Alike`) are told apart by an upload alone:
`chunks/put_many` says which of its chunks were there, and a torn file keeps its place when its
chunk is uploaded again. So their answers are the same exactly where the uploads find the pools in
agreement (`PoolsAgree`), or the user writes nowhere (`answers_alike_iff`). What every request keeps
of two such relays is `Twins`.
-/

namespace Pear

open Relay

/-- The row of the team a workspace is attached to. -/
def Access.teamOf (a : Access) (id : Text) : Option Team :=
  (a.workspaces[id]?.bind (·.teamId)).bind (a.teams[·]?)

section
variable (blake3 : Bytes → Text) (user : Text)

/-- Two relays agree on a workspace. Of its team a request reads the policy and the user's role. -/
structure SameWorkspace (s t : PoolRelay) (id : Text) : Prop where
  row : s.tables.access.workspaces[id]? = t.tables.access.workspaces[id]?
  team : (s.tables.access.teamOf id).map (fun team => (team.syncEnv, team.members[user]?)) =
    (t.tables.access.teamOf id).map fun team => (team.syncEnv, team.members[user]?)
  heads : s.tables.heads[id]? = t.tables.heads[id]?
  snapshots : s.snapshotIds[id]? = t.snapshotIds[id]?
  refs : ∀ h, (id, h) ∈ s.tables.refs ↔ (id, h) ∈ t.tables.refs
  blobs : ∀ h, (id, h) ∈ s.tables.refs → s.look blake3 h = t.look blake3 h

/-- Two relays on which the user has roles on the same workspaces, and which agree on those. -/
structure Alike (s t : PoolRelay) : Prop where
  reads : ∀ id, s.tables.access.reads id user = t.tables.access.reads id user
  same : ∀ id, s.tables.access.reads id user = true → SameWorkspace blake3 user s t id

end

/-- Every chunk that a request uploads is in one of these classes, by its route. -/
def PoolRequest.Uploads (single batch : Text → Prop) : PoolRequest → Prop
  | .putChunk _ hash _ => single hash
  | .putManyChunks _ entries => ∀ e ∈ entries, batch e.1
  | _ => True

/-- The pools agree on the chunks of these classes: on one that comes in a batch, whether it is
there and what a read gives; on one that comes alone, what a read gives once it is uploaded. -/
structure PoolsAgree (blake3 : Bytes → Text) (single batch : Text → Prop) (s t : PoolRelay) :
    Prop where
  batch : ∀ h body, batch h → checkEntry blake3 h body = .ok () → s.look blake3 h = t.look blake3 h
  single : ∀ h body, single h → checkEntry blake3 h body = .ok () →
    (s.look blake3 h).getD (some body) = (t.look blake3 h).getD (some body)

section
variable {blake3 : Bytes → Text} {user id hash : Text} {s t : PoolRelay}

/-! ## The checks -/

/-- The role gates decide alike. -/
theorem Alike.requireRole (h : Alike blake3 user s t) (id : Text) (min : Role) :
    s.tables.access.requireRole id (.user user) min =
      t.tables.access.requireRole id (.user user) min := by
  cases hr : s.tables.access.reads id user with
  | false =>
    rw [Access.requireRole_of_not_reads hr, Access.requireRole_of_not_reads (h.reads id ▸ hr)]
  | true =>
    have hsame : SameWorkspace blake3 user s t id := h.same id hr
    have hteam := hsame.team
    unfold Access.teamOf at hteam
    unfold Access.requireRole
    rw [← hsame.row] at hteam ⊢
    cases hw : s.tables.access.workspaces[id]? with
    | none => rfl
    | some ws =>
      have hrole : s.tables.access.roleOn ws (.user user) =
          t.tables.access.roleOn ws (.user user) := by
        rw [hw, Option.bind_some] at hteam
        unfold Access.roleOn
        cases htid : ws.teamId with
        | none => rfl
        | some team =>
          rw [htid, Option.bind_some] at hteam
          unfold Access.memberRole
          cases hs : s.tables.access.teams[team]? <;> cases ht : t.tables.access.teams[team]? <;>
            simp_all
      simp only [hrole]

/-- The user sees the same chunks. -/
theorem Alike.visible (h : Alike blake3 user s t) (hash : Text) :
    s.tables.visible hash (.user user) = t.tables.visible hash (.user user) := by
  have hiff : s.tables.chunkVisibleTo hash user = true ↔ t.tables.chunkVisibleTo hash user = true := by
    rw [chunkVisibleTo_iff, chunkVisibleTo_iff]
    refine exists_congr fun id => ?_
    rw [← h.reads id]
    constructor
    · rintro ⟨hrow, hr⟩
      exact ⟨((h.same id hr).refs hash).mp hrow, hr⟩
    · rintro ⟨hrow, hr⟩
      exact ⟨((h.same id hr).refs hash).mpr hrow, hr⟩
  exact Bool.eq_iff_iff.mpr hiff

/-- And the store tells the same about a chunk that the user sees. -/
theorem Alike.look (h : Alike blake3 user s t) (hv : s.tables.visible hash (.user user) = true) :
    s.look blake3 hash = t.look blake3 hash := by
  obtain ⟨id, hrow, hr⟩ := chunkVisibleTo_iff.mp hv
  exact (h.same id hr).blobs hash hrow

/-- Presence together with visibility. -/
theorem Alike.present (h : Alike blake3 user s t) (hash : Text) :
    (decide (hash ∈ s.tables.blobs) && s.tables.visible hash (.user user)) =
      (decide (hash ∈ t.tables.blobs) && t.tables.visible hash (.user user)) := by
  rw [← h.visible hash]
  cases hv : s.tables.visible hash (.user user) with
  | false => rw [Bool.and_false, Bool.and_false]
  | true => rw [← s.isSome_look, ← t.isSome_look, h.look hv]

theorem Alike.requireChunks (h : Alike blake3 user s t) (hashes : List Text) :
    s.tables.requireChunks (.user user) hashes = t.tables.requireChunks (.user user) hashes := by
  unfold Relay.requireChunks
  simp only [h.present]

/-- The trust boundary of a commit decides alike. -/
theorem Alike.validateCommit (h : Alike blake3 user s t)
    (hr : s.tables.access.reads id user = true) (ws : RelayWorkspace) (req : CommitRequest) :
    s.tables.validateCommit ws id (.user user) req = t.tables.validateCommit ws id (.user user) req := by
  have hteam := (h.same id hr).team
  unfold Access.teamOf at hteam
  have hplain : ∀ raw, s.tables.validateSubmittedManifest id (.user user) raw =
      t.tables.validateSubmittedManifest id (.user user) raw := by
    intro raw
    unfold validateSubmittedManifest
    simp only [h.requireChunks]
    cases hs : (s.tables.access.workspaces[id]?.bind (·.teamId)).bind (s.tables.access.teams[·]?) <;>
      cases ht : (t.tables.access.workspaces[id]?.bind (·.teamId)).bind (t.tables.access.teams[·]?) <;>
      simp_all
  unfold Relay.validateCommit validateE2eCommit
  simp only [h.requireChunks, hplain]

theorem Alike.currentSeq (h : Alike blake3 user s t) (hr : s.tables.access.reads id user = true) :
    s.tables.currentSeq id = t.tables.currentSeq id := by
  unfold Relay.currentSeq
  rw [(h.same id hr).heads]

/-- The checks of a head decide alike. -/
theorem Alike.checkHead (h : Alike blake3 user s t) (req : CommitRequest) :
    s.tables.checkHead id (.user user) req = t.tables.checkHead id (.user user) req := by
  unfold Relay.checkHead
  rw [h.requireRole id .writer]
  cases hws : t.tables.access.requireRole id (.user user) .writer with
  | error e => rfl
  | ok ws =>
    have hr : s.tables.access.reads id user = true :=
      (h.reads id).trans (Access.reads_of_requireRole hws)
    rw [h.currentSeq hr]
    simp only [h.validateCommit hr]

/-- And those of a snapshot. -/
theorem Alike.checkSnapshot (h : Alike blake3 user s t) (req : CommitRequest) :
    s.tables.checkSnapshot id (.user user) req = t.tables.checkSnapshot id (.user user) req := by
  unfold Relay.checkSnapshot
  rw [h.requireRole id .writer]
  cases hws : t.tables.access.requireRole id (.user user) .writer with
  | error e => rfl
  | ok ws =>
    have hr : s.tables.access.reads id user = true :=
      (h.reads id).trans (Access.reads_of_requireRole hws)
    simp only [h.validateCommit hr]

theorem Alike.isWriter (h : Alike blake3 user s t) (id : Text) :
    s.tables.access.isWriter id (.user user) = t.tables.access.isWriter id (.user user) := by
  unfold Access.isWriter
  rw [h.requireRole]

theorem Alike.flight (h : Alike blake3 user s t) (phase : FlightPhase) :
    s.tables.flight id (.user user) phase = t.tables.flight id (.user user) phase := by
  unfold Relay.flight
  rw [h.isWriter]

/-- The checks of the uploads decide alike. -/
theorem Alike.putChunk (h : Alike blake3 user s t) (body : Bytes) :
    s.tables.putChunk blake3 id (.user user) hash body =
      t.tables.putChunk blake3 id (.user user) hash body := by
  unfold Relay.putChunk
  rw [h.requireRole, h.flight]

theorem Alike.putManyChunks (h : Alike blake3 user s t) (entries : List (Text × Bytes)) :
    s.tables.putManyChunks id (.user user) entries =
      t.tables.putManyChunks id (.user user) entries := by
  unfold Relay.putManyChunks
  rw [h.requireRole, h.flight]

/-- And those of a presence check. -/
theorem Alike.chunksMissing (h : Alike blake3 user s t) (hashes : List Text) :
    s.tables.chunksMissing id (.user user) hashes =
      t.tables.chunksMissing id (.user user) hashes := by
  unfold Relay.chunksMissing
  simp only [h.requireRole, h.flight, h.visible]

/-! ## What a request keeps -/

/-- Two states of a relay differ in the files of the pool alone. -/
structure SameTables (s s' : PoolRelay) : Prop where
  access : s'.tables.access = s.tables.access
  heads : s'.tables.heads = s.tables.heads
  refs : s'.tables.refs = s.tables.refs
  snapshots : s'.snapshotIds = s.snapshotIds

theorem PoolRelay.sameTables_storePut (s : PoolRelay) (hash : Text) (body : Bytes) :
    SameTables s (s.storePut hash body).1 := by
  unfold PoolRelay.storePut
  split
  · exact ⟨rfl, rfl, rfl, rfl⟩
  · have htables := s.tables.storePut_eq hash
    exact ⟨(congrArg Relay.access htables :), (congrArg Relay.heads htables :),
      (congrArg Relay.refs htables :), rfl⟩

theorem PoolRelay.sameTables_storeGet (s : PoolRelay) (hash : Text) :
    SameTables s (s.storeGet blake3 hash).1 := by
  unfold PoolRelay.storeGet
  split
  · split <;> exact ⟨rfl, rfl, rfl, rfl⟩
  · exact ⟨rfl, rfl, rfl, rfl⟩

/-- Two relays that look alike to a user, where no upload of these classes tells them apart. -/
structure Twins (blake3 : Bytes → Text) (user : Text) (single batch : Text → Prop)
    (s t : PoolRelay) : Prop where
  alike : Alike blake3 user s t
  pools : (∀ id, s.tables.access.isWriter id (.user user) = false) ∨
    PoolsAgree blake3 single batch s t

variable {single batch : Text → Prop} {s' t' : PoolRelay}

/-- The store is read or written on both sides: about a blob that is looked at differently than
before, both now tell the same. -/
theorem Twins.files (h : Twins blake3 user single batch s t) (hs : SameTables s s')
    (ht : SameTables t t') (hlook : ∀ x, s'.look blake3 x = t'.look blake3 x ∨
      s'.look blake3 x = s.look blake3 x ∧ t'.look blake3 x = t.look blake3 x) :
    Twins blake3 user single batch s' t' := by
  constructor
  · constructor
    · intro id
      rw [hs.access, ht.access, h.alike.reads id]
    · intro id hr
      rw [hs.access] at hr
      obtain ⟨hrow, hteam, hheads, hsnapshots, hrefs, hblobs⟩ := h.alike.same id hr
      refine ⟨?_, ?_, ?_, ?_, ?_, ?_⟩
      · rw [hs.access, ht.access, hrow]
      · rw [hs.access, ht.access, hteam]
      · rw [hs.heads, ht.heads, hheads]
      · rw [hs.snapshots, ht.snapshots, hsnapshots]
      · rw [hs.refs, ht.refs]
        exact hrefs
      · intro x hx
        rw [hs.refs] at hx
        rcases hlook x with heq | ⟨hs', ht'⟩
        · exact heq
        · rw [hs', ht', hblobs x hx]
  · refine h.pools.imp (fun hw id => hs.access ▸ hw id) fun hp => ⟨?_, ?_⟩
    · intro x body hx hok
      rcases hlook x with heq | ⟨hs', ht'⟩
      · exact heq
      · rw [hs', ht', hp.batch x body hx hok]
    · intro x body hx hok
      rcases hlook x with heq | ⟨hs', ht'⟩
      · rw [heq]
      · rw [hs', ht', hp.single x body hx hok]

/-- Refs of a workspace are added on both sides, to chunks about which the stores tell the same. -/
theorem Twins.refs (h : Twins blake3 user single batch s t) {hashes : List Text}
    (hlook : ∀ x ∈ hashes, s.look blake3 x = t.look blake3 x) :
    Twins blake3 user single batch (s.insertChunkRefs id hashes) (t.insertChunkRefs id hashes) := by
  refine ⟨⟨h.alike.reads, fun id' hr' => ?_⟩, h.pools.imp (fun hw => hw) fun hp => ⟨hp.1, hp.2⟩⟩
  obtain ⟨hrow, hteam, hheads, hsnapshots, hrefs, hblobs⟩ := h.alike.same id' hr'
  refine ⟨hrow, hteam, hheads, hsnapshots, fun x => ?_, fun x hx => ?_⟩
  · unfold PoolRelay.insertChunkRefs
    rw [mem_insertChunkRefs, mem_insertChunkRefs, hrefs]
  · unfold PoolRelay.insertChunkRefs at hx
    rcases mem_insertChunkRefs.mp hx with hx | ⟨-, hx⟩
    · exact hblobs x hx
    · exact hlook x hx

/-- A head is added on both sides. -/
theorem Twins.head (h : Twins blake3 user single batch s t)
    (hr : s.tables.access.reads id user = true) {chunks : List Text}
    (hlook : ∀ x ∈ chunks, s.look blake3 x = t.look blake3 x) :
    Twins blake3 user single batch
      { s with tables := s.tables.insertHead id (s.tables.currentSeq id + 1) chunks }
      { t with tables := t.tables.insertHead id (t.tables.currentSeq id + 1) chunks } := by
  have hrows (rows : List HeadRow) : Twins blake3 user single batch
      { s with tables := { s.tables with heads := s.tables.heads.insert id rows } }
      { t with tables := { t.tables with heads := t.tables.heads.insert id rows } } := by
    refine ⟨⟨h.alike.reads, fun id' hr' => ?_⟩, h.pools.imp (fun hw => hw) fun hp => ⟨hp.1, hp.2⟩⟩
    obtain ⟨hrow, hteam, hheads, hsnapshots, hrefs, hblobs⟩ := h.alike.same id' hr'
    refine ⟨hrow, hteam, ?_, hsnapshots, hrefs, hblobs⟩
    simp only [Lib.getElem?_insert_eq, hheads]
  unfold Relay.insertHead
  rw [← h.alike.currentSeq hr, ← (h.alike.same id hr).heads]
  exact (hrows _).refs hlook

/-- A snapshot is added on both sides. -/
theorem Twins.snapshot (h : Twins blake3 user single batch s t) {chunks : List Text}
    {ids : List Int} (hlook : ∀ x ∈ chunks, s.look blake3 x = t.look blake3 x) :
    Twins blake3 user single batch
      { s with
        tables := s.tables.insertSnapshot id chunks, snapshotIds := s.snapshotIds.insert id ids }
      { t with
        tables := t.tables.insertSnapshot id chunks, snapshotIds := t.snapshotIds.insert id ids } := by
  have hrows (rows rows' : List (Option (List Text))) : Twins blake3 user single batch
      { s with
        tables := { s.tables with snapshots := s.tables.snapshots.insert id rows }
        snapshotIds := s.snapshotIds.insert id ids }
      { t with
        tables := { t.tables with snapshots := t.tables.snapshots.insert id rows' }
        snapshotIds := t.snapshotIds.insert id ids } := by
    refine ⟨⟨h.alike.reads, fun id' hr' => ?_⟩, h.pools.imp (fun hw => hw) fun hp => ⟨hp.1, hp.2⟩⟩
    obtain ⟨hrow, hteam, hheads, hsnapshots, hrefs, hblobs⟩ := h.alike.same id' hr'
    refine ⟨hrow, hteam, hheads, ?_, hrefs, hblobs⟩
    simp only [Lib.getElem?_insert_eq, hsnapshots]
  exact (hrows _ _).refs hlook

/-- Who writes a workspace can tell the relays apart by uploads that find the pools apart, and by
no others. -/
theorem Twins.agree (h : Twins blake3 user single batch s t)
    (hw : s.tables.access.isWriter id (.user user) = true) : PoolsAgree blake3 single batch s t := by
  rcases h.pools with hnone | hp
  · rw [hnone id] at hw
    cases hw
  · exact hp

/-- A valid chunk is written on both sides. -/
theorem Twins.storePut (h : Twins blake3 user single batch s t) {body : Bytes}
    (hok : checkEntry blake3 hash body = .ok ())
    (hlook : (s.look blake3 hash).getD (some body) = (t.look blake3 hash).getD (some body)) :
    Twins blake3 user single batch (s.storePut hash body).1 (t.storePut hash body).1 ∧
      (s.storePut hash body).1.look blake3 hash = (t.storePut hash body).1.look blake3 hash := by
  have hbody : blake3 body = hash := (checkEntry_eq_ok_iff.mp hok).2.2
  have hsame : (s.storePut hash body).1.look blake3 hash =
      (t.storePut hash body).1.look blake3 hash := by
    rw [s.look_storePut hbody, t.look_storePut hbody, if_pos rfl, if_pos rfl, hlook]
  refine ⟨h.files (s.sameTables_storePut hash body) (t.sameTables_storePut hash body) fun x => ?_,
    hsame⟩
  by_cases hx : x = hash
  · exact .inl (hx ▸ hsame)
  · rw [s.look_storePut hbody, t.look_storePut hbody, if_neg hx, if_neg hx]
    exact .inr ⟨rfl, rfl⟩

/-- A chunk about which the stores tell the same is read on both sides. -/
theorem Twins.storeGet (h : Twins blake3 user single batch s t)
    (hlook : s.look blake3 hash = t.look blake3 hash) :
    Twins blake3 user single batch (s.storeGet blake3 hash).1 (t.storeGet blake3 hash).1 ∧
      (s.storeGet blake3 hash).2 = (t.storeGet blake3 hash).2 := by
  refine ⟨h.files (s.sameTables_storeGet hash) (t.sameTables_storeGet hash) fun x => ?_, ?_⟩
  · rw [s.look_storeGet, t.look_storeGet, ← hlook]
    by_cases hx : x = hash ∧ s.look blake3 hash = some none
    · rw [if_pos hx, if_pos hx]
      exact .inl rfl
    · rw [if_neg hx, if_neg hx]
      exact .inr ⟨rfl, rfl⟩
  · rw [s.storeGet_read, t.storeGet_read, hlook]

/-! ## Requests -/

/-- Two loops over the same entries, up to the same entry. -/
structure SameBatch (blake3 : Bytes → Text) (user : Text) (single batch : Text → Prop) (id : Text)
    (b c : PoolRelay.Batch) : Prop where
  twins : Twins blake3 user single batch b.relay c.relay
  writer : b.relay.tables.access.isWriter id (.user user) = true
  confirmed : b.confirmed = c.confirmed
  results : b.results = c.results
  looks : ∀ x ∈ b.confirmed, b.relay.look blake3 x = c.relay.look blake3 x

/-- One entry is stored on both sides or on neither, and its statuses are the same. -/
theorem SameBatch.put {b c : PoolRelay.Batch} (h : SameBatch blake3 user single batch id b c)
    {entry : Text × Bytes} (hin : batch entry.1) :
    SameBatch blake3 user single batch id (b.put blake3 entry) (c.put blake3 entry) := by
  unfold PoolRelay.Batch.put
  cases hok : checkEntry blake3 entry.1 entry.2 with
  | error e =>
    exact ⟨h.twins, h.writer, h.confirmed, by rw [h.results], h.looks⟩
  | ok _ =>
    have hsame : b.relay.look blake3 entry.1 = c.relay.look blake3 entry.1 :=
      (h.twins.agree h.writer).batch entry.1 entry.2 hin hok
    obtain ⟨htwins, hlook⟩ := h.twins.storePut hok (by rw [hsame])
    have hbody : blake3 entry.2 = entry.1 := (checkEntry_eq_ok_iff.mp hok).2.2
    refine ⟨htwins, ?_, ?_, ?_, ?_⟩
    · exact (b.relay.sameTables_storePut entry.1 entry.2).access ▸ h.writer
    · exact congrArg (entry.1 :: ·) h.confirmed
    · have hwritten (r : PoolRelay) : (r.storePut entry.1 entry.2).2 =
          (r.look blake3 entry.1).isNone := r.storePut_written entry.2
      simp only [hwritten, hsame, h.results]
    · intro x hx
      by_cases heq : x = entry.1
      · exact heq ▸ hlook
      · rw [PoolRelay.look_storePut _ hbody, PoolRelay.look_storePut _ hbody, if_neg heq, if_neg heq]
        exact h.looks x ((List.mem_cons.mp hx).resolve_left heq)

/-- And so are all of them. -/
theorem SameBatch.foldl : ∀ {entries : List (Text × Bytes)} {b c : PoolRelay.Batch},
    SameBatch blake3 user single batch id b c → (∀ e ∈ entries, batch e.1) →
    SameBatch blake3 user single batch id (entries.foldl (PoolRelay.Batch.put blake3) b)
      (entries.foldl (PoolRelay.Batch.put blake3) c)
  | [], _, _, h, _ => h
  | _ :: _, _, _, h, hin =>
    (h.put (hin _ List.mem_cons_self)).foldl fun e he => hin e (List.mem_cons_of_mem _ he)

/-- The same answer, and relays that still look alike. -/
def Answered (blake3 : Bytes → Text) (user : Text) (single batch : Text → Prop)
    (r r' : PoolRelay × PoolAnswer) : Prop :=
  r.2 = r'.2 ∧ Twins blake3 user single batch r.1 r'.1

theorem Twins.putChunk (h : Twins blake3 user single batch s t) {body : Bytes}
    (hin : single hash) : Answered blake3 user single batch (s.putChunk blake3 user id hash body)
      (t.putChunk blake3 user id hash body) := by
  unfold PoolRelay.putChunk
  rw [← h.alike.putChunk]
  cases hf : s.tables.putChunk blake3 id (.user user) hash body with
  | error e => exact ⟨rfl, h⟩
  | ok f =>
    obtain ⟨hok, hw⟩ := putChunk_passes_iff.mp ⟨f, hf⟩
    obtain ⟨htwins, hlook⟩ := h.storePut hok ((h.agree hw).single hash body hin hok)
    exact ⟨rfl, htwins.refs (List.forall_mem_singleton.mpr hlook)⟩

theorem Twins.putManyChunks (h : Twins blake3 user single batch s t)
    {entries : List (Text × Bytes)} (hin : ∀ e ∈ entries, batch e.1) :
    Answered blake3 user single batch (s.putManyChunks blake3 user id entries)
      (t.putManyChunks blake3 user id entries) := by
  unfold PoolRelay.putManyChunks
  rw [← h.alike.putManyChunks]
  cases hf : s.tables.putManyChunks id (.user user) entries with
  | error e => exact ⟨rfl, h⟩
  | ok f =>
    have hstart : SameBatch blake3 user single batch id ⟨s, [], []⟩ ⟨t, [], []⟩ :=
      ⟨h, (putManyChunks_passes_iff.mp ⟨f, hf⟩).2, rfl, rfl, nofun⟩
    have hend := hstart.foldl hin
    refine ⟨congrArg PoolAnswer.results hend.results, ?_⟩
    dsimp only
    rw [← hend.confirmed]
    exact hend.twins.refs hend.looks

/-- The read of a chunk that the user sees. -/
theorem Twins.readChunk (h : Twins blake3 user single batch s t)
    (hv : s.tables.visible hash (.user user) = true) :
    Answered blake3 user single batch (s.readChunk blake3 hash) (t.readChunk blake3 hash) := by
  obtain ⟨htwins, hread⟩ := h.storeGet (h.alike.look hv)
  unfold PoolRelay.readChunk
  revert htwins hread
  rcases s.storeGet blake3 hash with ⟨s', body⟩
  rcases t.storeGet blake3 hash with ⟨t', body'⟩
  rintro htwins (rfl : body = body')
  cases body with
  | none => exact ⟨rfl, htwins⟩
  | some body => exact ⟨rfl, htwins⟩

theorem Twins.getChunk (h : Twins blake3 user single batch s t) :
    Answered blake3 user single batch (s.getChunk blake3 user id hash)
      (t.getChunk blake3 user id hash) := by
  unfold PoolRelay.getChunk
  rw [← h.alike.requireRole, ← h.alike.visible]
  split
  · exact ⟨rfl, h⟩
  · split
    · exact ⟨rfl, h⟩
    · split
      · exact ⟨rfl, h⟩
      · rename_i hv
        exact h.readChunk (Bool.eq_true_of_not_eq_false hv)

theorem Twins.chunksMissing (h : Twins blake3 user single batch s t) {hashes : List Text} :
    Answered blake3 user single batch (s.chunksMissing user id hashes)
      (t.chunksMissing user id hashes) := by
  unfold PoolRelay.chunksMissing
  simp only [← Bool.not_and, h.alike.chunksMissing, h.alike.present]
  split
  · exact ⟨rfl, h⟩
  · exact ⟨rfl, h⟩

/-- The reads of several chunks that the user sees. -/
theorem Twins.readEach : ∀ {hashes : List Text} {s t : PoolRelay} {entries : List (Text × Bytes)},
    Twins blake3 user single batch s t →
    (∀ x ∈ hashes, s.tables.visible x (.user user) = true) →
    Answered blake3 user single batch (PoolRelay.readEach blake3 s hashes entries)
      (PoolRelay.readEach blake3 t hashes entries)
  | [], _, _, _, h, _ => ⟨rfl, h⟩
  | hash :: hashes, s, t, entries, h, hv => by
    obtain ⟨htwins, hread⟩ := h.storeGet (h.alike.look (hv hash List.mem_cons_self))
    have hsame : SameTables s (s.storeGet blake3 hash).1 := s.sameTables_storeGet hash
    unfold PoolRelay.readEach
    revert htwins hread hsame
    rcases s.storeGet blake3 hash with ⟨s', body⟩
    rcases t.storeGet blake3 hash with ⟨t', body'⟩
    rintro htwins (rfl : body = body') hsame
    cases body with
    | none => exact ⟨rfl, htwins⟩
    | some body =>
      refine htwins.readEach fun x hx => ?_
      have hvx := hv x (List.mem_cons_of_mem _ hx)
      obtain ⟨id, hrow, hr⟩ := chunkVisibleTo_iff.mp hvx
      exact chunkVisibleTo_iff.mpr ⟨id, hsame.refs ▸ hrow, hsame.access ▸ hr⟩

theorem Twins.getManyChunks (h : Twins blake3 user single batch s t) {hashes : List Text} :
    Answered blake3 user single batch (s.getManyChunks blake3 user id hashes)
      (t.getManyChunks blake3 user id hashes) := by
  unfold PoolRelay.getManyChunks PoolRelay.checkGetMany
  simp only [← h.alike.requireRole, ← h.alike.visible]
  split
  · exact ⟨rfl, h⟩
  · split
    · exact ⟨rfl, h⟩
    · rename_i hnone
      refine h.readEach fun x hx => ?_
      simpa using List.find?_eq_none.mp hnone x hx

theorem Twins.putHead (h : Twins blake3 user single batch s t) {req : CommitRequest}
    {stored : Bytes} : Answered blake3 user single batch (s.putHead blake3 user id req stored)
      (t.putHead blake3 user id req stored) := by
  unfold PoolRelay.putHead
  rw [putHead_eq, putHead_eq, ← h.alike.checkHead]
  cases hc : s.tables.checkHead id (.user user) req with
  | error e => exact ⟨rfl, h⟩
  | ok chunks =>
    obtain ⟨hw, hv⟩ := of_checkHead hc
    have hr := Access.reads_of_isWriter hw
    exact ⟨congrArg (fun n => PoolAnswer.head (n + 1) (blake3 stored)) (h.alike.currentSeq hr),
      h.head hr fun x hx => h.alike.look (hv x hx)⟩

theorem Twins.createSnapshot (h : Twins blake3 user single batch s t) {req : CommitRequest}
    {createdAt : Int} :
    Answered blake3 user single batch (s.createSnapshot user id req createdAt)
      (t.createSnapshot user id req createdAt) := by
  unfold PoolRelay.createSnapshot
  rw [createSnapshot_eq, createSnapshot_eq, ← h.alike.checkSnapshot]
  cases hc : s.tables.checkSnapshot id (.user user) req with
  | error e => exact ⟨rfl, h⟩
  | ok chunks =>
    obtain ⟨hw, hv⟩ := of_checkSnapshot hc
    have hids := (h.alike.same id (Access.reads_of_isWriter hw)).snapshots
    have hnext : s.nextSnapshot id = t.nextSnapshot id := by
      unfold PoolRelay.nextSnapshot
      rw [hids]
    dsimp only [Except.map]
    rw [← hnext, ← hids]
    exact ⟨rfl, h.snapshot fun x hx => h.alike.look (hv x hx)⟩

/-- One request is answered alike. -/
theorem Twins.serve (h : Twins blake3 user single batch s t) {r : PoolRequest}
    (hin : r.Uploads single batch) :
    Answered blake3 user single batch (s.serve blake3 user r) (t.serve blake3 user r) := by
  cases r with
  | putChunk id hash body => exact h.putChunk hin
  | getChunk id hash => exact h.getChunk
  | chunksMissing id hashes => exact h.chunksMissing
  | putManyChunks id entries => exact h.putManyChunks hin
  | getManyChunks id hashes => exact h.getManyChunks
  | putHead id req stored => exact h.putHead
  | createSnapshot id req createdAt => exact h.createSnapshot

/-- And so is one request after the other. -/
theorem Twins.answers : ∀ {reqs : List PoolRequest} {s t : PoolRelay},
    Twins blake3 user single batch s t → (∀ r ∈ reqs, r.Uploads single batch) →
    PoolRelay.answers blake3 user s reqs = PoolRelay.answers blake3 user t reqs
  | [], _, _, _, _ => rfl
  | r :: rs, s, t, h, hin => by
    obtain ⟨hanswer, hnext⟩ := h.serve (hin r List.mem_cons_self)
    have hrest := hnext.answers fun r' hr' => hin r' (List.mem_cons_of_mem _ hr')
    unfold PoolRelay.answers
    rw [hanswer, hrest]

/-! ## What an upload tells -/

/-- What reads of an uploaded chunk on two sides answer alike, the stores tell alike. -/
theorem look_of_getChunk (hhash : isChunkHash hash = true)
    (hws : s.tables.access.isWriter id (.user user) = true)
    (hwt : t.tables.access.isWriter id (.user user) = true)
    (hs : (id, hash) ∈ s.tables.refs) (ht : (id, hash) ∈ t.tables.refs)
    (hanswer : (s.getChunk blake3 user id hash).2 = (t.getChunk blake3 user id hash).2) :
    (s.look blake3 hash).join = (t.look blake3 hash).join := by
  rw [PoolRelay.getChunk_answer hhash hws hs, PoolRelay.getChunk_answer hhash hwt ht] at hanswer
  cases hs' : (s.look blake3 hash).join <;> cases ht' : (t.look blake3 hash).join <;>
    simp_all

/-- Where a chunk is read alike once it is uploaded, the stores told alike about it, but for a chunk
that one of them did not have. -/
theorem getD_look_of_read {body : Bytes} (hok : checkEntry blake3 hash body = .ok ())
    (hws : s.tables.access.isWriter id (.user user) = true)
    (hwt : t.tables.access.isWriter id (.user user) = true)
    (hread : (((s.storePut hash body).1.insertChunkRefs id [hash]).getChunk blake3 user id hash).2 =
      (((t.storePut hash body).1.insertChunkRefs id [hash]).getChunk blake3 user id hash).2) :
    (s.look blake3 hash).getD (some body) = (t.look blake3 hash).getD (some body) := by
  obtain ⟨hhash, -, hbody⟩ := checkEntry_eq_ok_iff.mp hok
  have hjoin (r : PoolRelay) : (((r.storePut hash body).1.insertChunkRefs id [hash]).look blake3
      hash).join = (r.look blake3 hash).getD (some body) := by
    change ((r.storePut hash body).1.look blake3 hash).join = _
    rw [r.look_storePut hbody, if_pos rfl, Option.join_some]
  have hrow (r : PoolRelay) : (id, hash) ∈ (r.insertChunkRefs id [hash]).tables.refs :=
    mem_insertChunkRefs.mpr (.inr ⟨rfl, List.mem_singleton_self hash⟩)
  rw [← hjoin s, ← hjoin t]
  refine look_of_getChunk hhash ?_ ?_ (hrow _) (hrow _) hread
  · exact (s.sameTables_storePut hash body).access ▸ hws
  · exact (t.sameTables_storePut hash body).access ▸ hwt

/-- A user who writes a workspace tells two pools apart: by a chunk that is in one of them, through
the statuses of a batch, and by a torn one, through a read. -/
theorem PoolsAgree.of_answers (h : Alike blake3 user s t)
    (hw : s.tables.access.isWriter id (.user user) = true)
    (hanswers : ∀ reqs : List PoolRequest, (∀ r ∈ reqs, r.Uploads single batch) →
      PoolRelay.answers blake3 user s reqs = PoolRelay.answers blake3 user t reqs) :
    PoolsAgree blake3 single batch s t := by
  have hwt : t.tables.access.isWriter id (.user user) = true := h.isWriter id ▸ hw
  constructor
  · intro hash body hin hok
    have hsame := hanswers [.putManyChunks id [(hash, body)], .getChunk id hash] (by
      simp [PoolRequest.Uploads, hin])
    simp only [PoolRelay.answers, PoolRelay.serve, PoolRelay.putManyChunks_passed hok hw,
      PoolRelay.putManyChunks_passed hok hwt, List.cons.injEq, PoolAnswer.results.injEq] at hsame
    obtain ⟨hstatus, hread, -⟩ := hsame
    have hget := getD_look_of_read hok hw hwt hread
    cases hs : s.look blake3 hash <;> cases ht : t.look blake3 hash <;> simp_all
  · intro hash body hin hok
    have hsame := hanswers [.putChunk id hash body, .getChunk id hash] (by
      simp [PoolRequest.Uploads, hin])
    simp only [PoolRelay.answers, PoolRelay.serve, PoolRelay.putChunk_passed hok hw,
      PoolRelay.putChunk_passed hok hwt, List.cons.injEq] at hsame
    exact getD_look_of_read hok hw hwt hsame.2.1

end

/-! ## The pool as an oracle -/

/-- **What the pool tells.** Two relays that agree on every workspace of a user answer all of the
user's requests alike exactly when the pools agree on the chunks that the requests upload, or the
user writes nowhere. -/
theorem answers_alike_iff {blake3 : Bytes → Text} {user : Text} {s t : PoolRelay}
    (h : Alike blake3 user s t) (single batch : Text → Prop) :
    (∀ reqs : List PoolRequest, (∀ r ∈ reqs, r.Uploads single batch) →
      PoolRelay.answers blake3 user s reqs = PoolRelay.answers blake3 user t reqs) ↔
    (∀ id, s.tables.access.isWriter id (.user user) = false) ∨
      PoolsAgree blake3 single batch s t := by
  constructor
  · intro hanswers
    by_cases hw : ∃ id, s.tables.access.isWriter id (.user user) = true
    · obtain ⟨id, hw⟩ := hw
      exact .inr (.of_answers h hw hanswers)
    · exact .inl fun id => Bool.eq_false_of_not_eq_true fun hid => hw ⟨id, hid⟩
  · intro hpools reqs hin
    have htwins : Twins blake3 user single batch s t := ⟨h, hpools⟩
    exact htwins.answers hin

/-- A stand-in for the hash, which tells the empty chunk from all others. -/
def emptyOrNot (body : Bytes) : Text :=
  List.replicate 63 'a' ++ [if body = [] then '0' else '1']

/-- A relay with the workspaces of two users, of whom the other may have uploaded a chunk. -/
def otherTenant (uploaded : Bool) : PoolRelay where
  tables := .boot
    { workspaces := .ofList [("w".toList, { owner := some "u".toList, teamId := none, e2e := false }),
        ("v".toList, { owner := some "o".toList, teamId := none, e2e := false })] compare
      teams := ∅ }
    ∅ ∅ (if uploaded then [("v".toList, emptyOrNot [1])] else [])
    (if uploaded then .ofList [(emptyOrNot [1], 0)] compare else ∅) 0
  content _ := [1]
  snapshotIds := ∅

/-- The user reads nothing of what the other has. -/
theorem alike_otherTenant :
    Alike emptyOrNot "u".toList (otherTenant true) (otherTenant false) where
  reads _ := rfl
  same id hr := by
    have hid : id ≠ "v".toList := by
      rintro rfl
      exact absurd hr (by decide)
    have hrefs : ∀ h, (id, h) ∉ (otherTenant true).tables.refs := fun h hmem =>
      hid (Prod.mk.inj (List.mem_singleton.mp hmem)).1
    exact ⟨rfl, rfl, rfl, rfl, fun h => ⟨fun hmem => (hrefs h hmem).elim, nofun⟩,
      fun h hmem => (hrefs h hmem).elim⟩

/-- Requests that upload the empty chunk alone tell nothing about the other's. -/
theorem answers_alike_empty :
    let reqs : List PoolRequest := [.putManyChunks "w".toList [(emptyOrNot [], [])],
      .putChunk "w".toList (emptyOrNot []) [], .getChunk "w".toList (emptyOrNot [1]),
      .chunksMissing "w".toList [emptyOrNot [], emptyOrNot [1]]]
    PoolRelay.answers emptyOrNot "u".toList (otherTenant true) reqs =
      PoolRelay.answers emptyOrNot "u".toList (otherTenant false) reqs := by
  intro reqs
  have hlook : (otherTenant true).look emptyOrNot (emptyOrNot []) =
      (otherTenant false).look emptyOrNot (emptyOrNot []) := by
    decide +kernel
  have hpools : PoolsAgree emptyOrNot (· = emptyOrNot []) (· = emptyOrNot []) (otherTenant true)
      (otherTenant false) := by
    constructor
    · rintro _ body rfl -
      exact hlook
    · rintro _ body rfl -
      rw [hlook]
  refine (answers_alike_iff alike_otherTenant _ _).mpr (.inr hpools) reqs ?_
  simp [reqs, PoolRequest.Uploads]

/-- A batch with the other's chunk says that the pool has it. -/
theorem batch_status_tells :
    Alike emptyOrNot "u".toList (otherTenant true) (otherTenant false) ∧
      PoolRelay.answers emptyOrNot "u".toList (otherTenant true)
        [.putManyChunks "w".toList [(emptyOrNot [1], [1])]] =
          [.results [(emptyOrNot [1], .present)]] ∧
      PoolRelay.answers emptyOrNot "u".toList (otherTenant false)
        [.putManyChunks "w".toList [(emptyOrNot [1], [1])]] =
          [.results [(emptyOrNot [1], .stored)]] :=
  ⟨alike_otherTenant, by decide +kernel, by decide +kernel⟩

end Pear
