import Pear.Relay.Answers
import Pear.Relay.HeadLog
import Pear.Base64

/-!
# Stored rows and their chunk lists

The `manifest` column of heads and snapshots down to its text, and the two ways the relay gets a chunk
list (`routes.rs`, `gc.rs`): from the request when it commits, and from the stored text when the pool
GC marks what is live. An encrypted row holds an envelope of the manifest and its hashes, or, from
before there were envelopes, the encrypted manifest alone. `serde_json` is a parameter (`RowJson`); what
the derived `Serialize` and `Deserialize` of the envelope make of a JSON value is in the model.
-/

namespace Pear

/-- A JSON value; a number is its literal. -/
inductive Json where
  | null
  | bool (b : Bool)
  | number (literal : Text)
  | str (s : Text)
  | arr (values : List Json)
  | obj (fields : List (Text × Json))

/-- `serde_json`, at values and at manifests. -/
structure RowJson where
  /-- `to_string` -/
  print : Json → Text
  /-- `from_str` -/
  read : Text → Option Json
  /-- `from_str::<Manifest>` -/
  manifest : Text → Option Manifest

/-! ## The envelope -/

/-- What the column of an encrypted row holds (`E2eStoredManifest`). -/
structure E2eStoredManifest where
  chunkHashes : List Text
  manifestEnc : Text
deriving DecidableEq

/-- A string (`String::deserialize`). -/
def Json.string : Json → Option Text
  | .str s => some s
  | _ => none

/-- A list of strings (`Vec::<String>::deserialize`). -/
def Json.strings : Json → Option (List Text)
  | .arr values => values.mapM Json.string
  | _ => none

/-- A field of an object, which must be there once. -/
def fieldOf (name : Text) (fields : List (Text × Json)) : Option Json :=
  match fields.filter (·.1 = name) with
  | [field] => some field.2
  | _ => none

namespace E2eStoredManifest

/-- `Serialize`: the fields in the order they are declared. -/
def serialize (e : E2eStoredManifest) : Json :=
  .obj [("chunk_hashes".toList, .arr (e.chunkHashes.map .str)),
    ("manifest_enc".toList, .str e.manifestEnc)]

/-- `Deserialize`: an object with both fields, in any order and among others, or an array of the
two. -/
def deserialize : Json → Option E2eStoredManifest
  | .obj fields => do
    let chunkHashes ← (← fieldOf "chunk_hashes".toList fields).strings
    let manifestEnc ← (← fieldOf "manifest_enc".toList fields).string
    return { chunkHashes, manifestEnc }
  | .arr [hashes, enc] => do
    let chunkHashes ← hashes.strings
    let manifestEnc ← enc.string
    return { chunkHashes, manifestEnc }
  | _ => none

end E2eStoredManifest

section
variable (json : RowJson)

/-- `e2e_stored_manifest`: the envelope, with the hashes sorted and without repetitions. -/
def e2eStoredManifest (manifestEnc : Text) (chunkHashes : List Text) : Text :=
  json.print (E2eStoredManifest.serialize
    { chunkHashes := (Std.ExtTreeSet.ofList chunkHashes compare).toList, manifestEnc })

/-- `e2e_stored_parse`: the encrypted manifest and the hashes. -/
def e2eStoredParse (stored : Text) : Option (Text × List Text) :=
  ((json.read stored).bind E2eStoredManifest.deserialize).map fun e => (e.manifestEnc, e.chunkHashes)

/-- `e2e_wire_manifest` -/
def e2eWireManifest (stored : Text) : Text :=
  match e2eStoredParse json stored with
  | some (manifestEnc, _) => manifestEnc
  | none => stored

/-- `stored_row_chunks` -/
def storedRowChunks (e2e : Bool) (stored : Text) : Option (List Text) :=
  if e2e then (e2eStoredParse json stored).map (·.2)
  else (json.manifest stored).map Relay.chunkHashes

/-- What `run_pool_gc` marks of a workspace, from the stored texts of its rows: `none` when one of them
cannot be parsed. -/
def markRows (e2e : Bool) : List Text → Option (List Text)
  | [] => some []
  | stored :: rows => do
    let chunks ← storedRowChunks json e2e stored
    let pinned ← markRows e2e rows
    return chunks ++ pinned

end

/-! ## Commits -/

/-- What a commit inserts: the stored text and the chunk references. -/
structure StoredRow where
  stored : Text
  refs : List Text

/-- The body of `POST /snapshots`. -/
structure SnapshotCreateRequest where
  name : Option Text
  device : Text
  manifest : Option Text
  manifestEnc : Option Text
  chunkHashes : Option (List Text)

/-- The encodings that a head commit reads. -/
def RowJson.codec (json : RowJson) (hash : StoredManifest → Text) : HeadCodec where
  parse := json.manifest
  decodedLen enc := (base64Decode enc).toOption.map List.length
  hash := hash

/-- The request as the trust boundary reads it. -/
def SnapshotCreateRequest.commit (codec : HeadCodec) (req : SnapshotCreateRequest) :
    Relay.CommitRequest where
  device := some req.device
  name := req.name
  baseSeq := 0
  manifest := req.manifest.map codec.parse
  manifestEnc := req.manifestEnc.map codec.decodedLen
  chunkHashes := req.chunkHashes

namespace Relay

/-- What `put_head` and `create_snapshot` store and reference: the flavor of the commit, its trust
boundary, and the text of the row. -/
def storedRow (json : RowJson) (s : Relay) (ws : RelayWorkspace) (id : Text) (p : Principal)
    (manifest manifestEnc : Option Text) (chunkHashes : Option (List Text)) :
    Except RelayError StoredRow := do
  refuseIf (ws.e2e ≠ manifestEnc.isSome) (.e2eMismatch ws.e2e)
  if ws.e2e then
    let enc := manifestEnc.getD []
    let some hashes := chunkHashes | throw .needsChunkHashes
    let refs ← s.validateE2eCommit p ((base64Decode enc).toOption.map List.length) hashes
    return { stored := e2eStoredManifest json enc hashes, refs }
  else
    let some raw := manifest | throw .needsManifest
    let refs ← s.validateSubmittedManifest id p (json.manifest raw)
    return { stored := raw, refs }

/-- `PUT /head`, down to the row that it inserts. -/
def putHeadRow (json : RowJson) (s : Relay) (id : Text) (p : Principal) (req : HeadPutRequest) :
    Except RelayError StoredRow := do
  let ws ← s.access.requireRole id p .writer
  let some device := req.device | throw .missingDevice
  refuseIf (validName device = false) (.badDevice device)
  let row ← s.storedRow json ws id p req.manifest req.manifestEnc req.chunkHashes
  refuseIf (req.baseSeq ≠ s.currentSeq id) (.headConflict (s.currentSeq id))
  return row

/-- `POST /snapshots`, down to the row that it inserts. -/
def createSnapshotRow (json : RowJson) (s : Relay) (id : Text) (p : Principal)
    (req : SnapshotCreateRequest) : Except RelayError StoredRow := do
  let ws ← s.access.requireRole id p .writer
  req.name.forM fun name => refuseIf (validName name = false) (.badName name)
  refuseIf (validName req.device = false) (.badDevice req.device)
  s.storedRow json ws id p req.manifest req.manifestEnc req.chunkHashes

end Relay

/-! ## Reading what was stored -/

/-- A character of base64: of the alphabet, or padding. -/
def Base64Char (c : Char) : Prop := c ∈ b64Alphabet ∨ c = '='

/-- The characters of six bits are of the alphabet. -/
theorem b64Char_mem (v : Nat) : b64Char v ∈ b64Alphabet := by
  unfold b64Char
  rw [List.getD_eq_getElem?_getD]
  cases h : b64Alphabet[v]? with
  | none => exact List.mem_cons_self
  | some c => exact List.mem_of_getElem? h

/-- What is assumed of `serde_json`: the value of an envelope is read back from what is printed of it,
and a text that is an object or an array has its opening bracket. -/
structure RowJson.Faithful (json : RowJson) : Prop where
  envelope : ∀ e : E2eStoredManifest, json.read (json.print e.serialize) = some e.serialize
  brace : ∀ text fields, json.read text = some (.obj fields) → '{' ∈ text
  bracket : ∀ text values, json.read text = some (.arr values) → '[' ∈ text

theorem mapM_string (hashes : List Text) : (hashes.map Json.str).mapM Json.string = some hashes := by
  induction hashes with
  | nil => rfl
  | cons h hashes ih => rw [List.map_cons, List.mapM_cons, ih]; rfl

/-- The derived impls fit together. -/
theorem E2eStoredManifest.deserialize_serialize (e : E2eStoredManifest) :
    deserialize e.serialize = some e := by
  show ((e.chunkHashes.map Json.str).mapM Json.string).bind _ = _
  rw [mapM_string]
  rfl

section
variable {json : RowJson} {hashes hashes' : List Text} {enc stored : Text}

/-- The hashes of an envelope. -/
theorem mem_sorted {h : Text} : h ∈ (Std.ExtTreeSet.ofList hashes compare).toList ↔ h ∈ hashes := by
  rw [Std.ExtTreeSet.mem_toList, Std.ExtTreeSet.mem_ofList, List.contains_iff_mem]

/-- **An envelope is read back**: the encrypted manifest, and the hashes sorted and without
repetitions. -/
theorem e2eStoredParse_stored (hj : json.Faithful) :
    e2eStoredParse json (e2eStoredManifest json enc hashes) =
      some (enc, (Std.ExtTreeSet.ofList hashes compare).toList) := by
  rw [e2eStoredParse, e2eStoredManifest, hj.envelope, Option.bind_some,
    E2eStoredManifest.deserialize_serialize]
  rfl

/-- **The text of an envelope depends on the set of its hashes only.** -/
theorem e2eStoredManifest_congr (h : ∀ x, x ∈ hashes ↔ x ∈ hashes') :
    e2eStoredManifest json enc hashes = e2eStoredManifest json enc hashes' := by
  have hset : Std.ExtTreeSet.ofList hashes compare = Std.ExtTreeSet.ofList hashes' compare := by
    refine Std.ExtTreeSet.ext_mem fun x => ?_
    rw [Std.ExtTreeSet.mem_ofList, Std.ExtTreeSet.mem_ofList, List.contains_iff_mem,
      List.contains_iff_mem, h]
  rw [e2eStoredManifest, hset]
  rfl

/-- What is read as an envelope has a bracket. -/
theorem bracket_of_e2eStoredParse (hj : json.Faithful) (h : e2eStoredParse json stored ≠ none) :
    '{' ∈ stored ∨ '[' ∈ stored := by
  unfold e2eStoredParse at h
  cases hread : json.read stored with
  | none =>
    rw [hread] at h
    exact absurd rfl h
  | some v =>
    rw [hread] at h
    cases v with
    | obj fields => exact .inl (hj.brace _ _ hread)
    | arr values => exact .inr (hj.bracket _ _ hread)
    | null | bool | number | str => exact absurd rfl h

/-- **An encrypted manifest alone is no envelope.** -/
theorem e2eStoredParse_base64 (hj : json.Faithful) (h : ∀ c ∈ stored, Base64Char c) :
    e2eStoredParse json stored = none := by
  by_contra hne
  rcases bracket_of_e2eStoredParse hj hne with hc | hc
  · exact absurd (h _ hc) (by unfold Base64Char; decide)
  · exact absurd (h _ hc) (by unfold Base64Char; decide)

end

/-! ## What is stored of a commit -/

/-- The text of a stored manifest. -/
def StoredManifest.text (json : RowJson) : StoredManifest → Text
  | .plain raw => raw
  | .e2e chunkHashes manifestEnc => json.print (E2eStoredManifest.serialize { chunkHashes, manifestEnc })

/-- A gate gives the row of its workspace. -/
theorem Access.workspace_of_requireRole {a : Access} {id : Text} {p : Principal} {min : Role}
    {ws : RelayWorkspace} (h : a.requireRole id p min = .ok ws) : a.workspaces[id]? = some ws := by
  unfold Access.requireRole at h
  split at h
  · cases h
  · rename_i hws
    split at h
    · cases h
    · split at h
      · cases h
      · cases h
        exact hws

namespace Relay

variable {json : RowJson} {s : Relay} {ws : RelayWorkspace} {id : Text} {p : Principal}
  {manifest manifestEnc : Option Text} {hashes : Option (List Text)} {row : StoredRow}

/-- **The chunk list of a stored row is what its commit referenced.** -/
theorem storedRow_chunks (hj : json.Faithful)
    (h : s.storedRow json ws id p manifest manifestEnc hashes = .ok row) :
    ∃ live, storedRowChunks json ws.e2e row.stored = some live ∧ ∀ x, x ∈ live ↔ x ∈ row.refs := by
  unfold storedRow at h
  obtain ⟨_, -, h⟩ := bind_eq_ok_iff.mp h
  unfold storedRowChunks
  split at h
  · rename_i he2e
    rw [if_pos he2e]
    split at h
    · obtain ⟨refs, hrefs, h⟩ := bind_eq_ok_iff.mp h
      cases h
      cases (validateE2eCommit_chunks hrefs).1
      rw [e2eStoredParse_stored hj]
      exact ⟨_, rfl, fun x => mem_sorted⟩
    · cases h
  · rename_i hplain
    rw [if_neg hplain]
    split at h
    · obtain ⟨refs, hrefs, h⟩ := bind_eq_ok_iff.mp h
      cases h
      exact ⟨refs, (validateSubmittedManifest_chunks hrefs).1, fun x => Iff.rfl⟩
    · cases h

/-- The trust boundary of a commit is the one that gives the row. -/
theorem validateCommit_eq (req : CommitRequest)
    (hmanifest : req.manifest = manifest.map json.manifest)
    (henc : req.manifestEnc =
      manifestEnc.map fun enc => (base64Decode enc).toOption.map List.length)
    (hhashes : req.chunkHashes = hashes) :
    s.validateCommit ws id p req =
      (s.storedRow json ws id p manifest manifestEnc hashes).map (·.refs) := by
  have hflavor : req.manifestEnc.isSome = manifestEnc.isSome := by rw [henc, Option.isSome_map]
  unfold validateCommit storedRow
  rw [hflavor, hhashes, hmanifest]
  cases hsame : refuseIf (ws.e2e ≠ manifestEnc.isSome) (RelayError.e2eMismatch ws.e2e) with
  | error e => rfl
  | ok _ =>
    have hsame := not_not.mp (refuseIf_eq_ok_iff.mp hsame)
    simp only [bind, Except.bind]
    split
    · rename_i he2e
      obtain ⟨enc, rfl⟩ := Option.isSome_iff_exists.mp (hsame ▸ he2e)
      cases hashes with
      | none => rfl
      | some hashes =>
        rw [henc, Option.map_some, Option.getD_some, Option.getD_some]
        dsimp only
        cases s.validateE2eCommit p ((base64Decode enc).toOption.map List.length) hashes <;> rfl
    · cases manifest with
      | none => rfl
      | some raw =>
        dsimp only [Option.map_some]
        cases s.validateSubmittedManifest id p (json.manifest raw) <;> rfl

variable {hash : StoredManifest → Text}

/-- **`PUT /head` inserts such a row**: the step of the pool's model is the row's, with its chunk
references. -/
theorem putHead_eq_row (req : HeadPutRequest) : s.putHead id p (req.commit (json.codec hash)) =
    (s.putHeadRow json id p req).map fun row => s.insertHead id (s.currentSeq id + 1) row.refs := by
  unfold putHead putHeadRow
  cases s.access.requireRole id p .writer with
  | error e => rfl
  | ok ws =>
    rw [show (req.commit (json.codec hash)).device = req.device from rfl]
    have hrefs : s.validateCommit ws id p (req.commit (json.codec hash)) =
        (s.storedRow json ws id p req.manifest req.manifestEnc req.chunkHashes).map (·.refs) :=
      validateCommit_eq _ rfl rfl rfl
    cases req.device with
    | none => rfl
    | some device =>
      simp only [bind, Except.bind]
      rw [hrefs]
      cases refuseIf (validName device = false) (RelayError.badDevice device) with
      | error e => rfl
      | ok _ =>
        dsimp only
        cases s.storedRow json ws id p req.manifest req.manifestEnc req.chunkHashes with
        | error e => rfl
        | ok row =>
          dsimp only [Except.map]
          rw [show (req.commit (json.codec hash)).baseSeq = req.baseSeq from rfl]
          cases refuseIf (req.baseSeq ≠ s.currentSeq id)
            (RelayError.headConflict (s.currentSeq id)) <;> rfl

/-- **`POST /snapshots` inserts such a row.** -/
theorem createSnapshot_eq_row (req : SnapshotCreateRequest) :
    s.createSnapshot id p (req.commit (json.codec hash)) =
      (s.createSnapshotRow json id p req).map fun row => s.insertSnapshot id row.refs := by
  unfold createSnapshot createSnapshotRow
  cases s.access.requireRole id p .writer with
  | error e => rfl
  | ok ws =>
    have hrefs : s.validateCommit ws id p (req.commit (json.codec hash)) =
        (s.storedRow json ws id p req.manifest req.manifestEnc req.chunkHashes).map (·.refs) :=
      validateCommit_eq _ rfl rfl rfl
    simp only [bind, Except.bind]
    rw [show (req.commit (json.codec hash)).name = req.name from rfl,
      show (req.commit (json.codec hash)).device = some req.device from rfl]
    cases req.name.forM fun name => refuseIf (validName name = false) (RelayError.badName name) with
    | error e => rfl
    | ok _ =>
      dsimp only
      cases refuseIf (validName req.device = false) (RelayError.badDevice req.device) with
      | error e => rfl
      | ok _ =>
        dsimp only
        rw [hrefs]
        cases s.storedRow json ws id p req.manifest req.manifestEnc req.chunkHashes <;> rfl

/-- The row that an accepted head inserts is one of its workspace's flavor. -/
theorem storedRow_of_putHeadRow {req : HeadPutRequest} (h : s.putHeadRow json id p req = .ok row) :
    ∃ ws, s.access.workspaces[id]? = some ws ∧
      s.storedRow json ws id p req.manifest req.manifestEnc req.chunkHashes = .ok row := by
  unfold putHeadRow at h
  obtain ⟨ws, hws, h⟩ := bind_eq_ok_iff.mp h
  split at h
  · obtain ⟨_, -, h⟩ := bind_eq_ok_iff.mp h
    obtain ⟨row', hrow, h⟩ := bind_eq_ok_iff.mp h
    obtain ⟨_, -, h⟩ := bind_eq_ok_iff.mp h
    cases h
    exact ⟨ws, Access.workspace_of_requireRole hws, hrow⟩
  · cases h

/-- And the row of a snapshot. -/
theorem storedRow_of_createSnapshotRow {req : SnapshotCreateRequest}
    (h : s.createSnapshotRow json id p req = .ok row) :
    ∃ ws, s.access.workspaces[id]? = some ws ∧
      s.storedRow json ws id p req.manifest req.manifestEnc req.chunkHashes = .ok row := by
  unfold createSnapshotRow at h
  obtain ⟨ws, hws, h⟩ := bind_eq_ok_iff.mp h
  obtain ⟨_, -, h⟩ := bind_eq_ok_iff.mp h
  obtain ⟨_, -, h⟩ := bind_eq_ok_iff.mp h
  exact ⟨ws, Access.workspace_of_requireRole hws, h⟩

/-- The chunk list that is read from a row's text is the one that its commit inserted. -/
def RowAgrees (json : RowJson) (s : Relay) (id : Text) (row : StoredRow) : Prop :=
  ∃ ws, s.access.workspaces[id]? = some ws ∧ ∃ live,
    storedRowChunks json ws.e2e row.stored = some live ∧ ∀ h, h ∈ live ↔ h ∈ row.refs

/-- The text of a row is that of the manifest the head log stores. -/
theorem stored_text {req : HeadPutRequest}
    (h : s.storedRow json ws id p req.manifest req.manifestEnc req.chunkHashes = .ok row) :
    req.stored.text json = row.stored := by
  unfold storedRow at h
  obtain ⟨_, hflavor, h⟩ := bind_eq_ok_iff.mp h
  have hflavor := not_not.mp (refuseIf_eq_ok_iff.mp hflavor)
  unfold HeadPutRequest.stored
  split at h
  · rename_i he2e
    obtain ⟨enc, henc⟩ := Option.isSome_iff_exists.mp (hflavor ▸ he2e)
    split at h
    · rename_i hashes hhashes
      obtain ⟨refs, -, h⟩ := bind_eq_ok_iff.mp h
      cases h
      rw [henc, hhashes]
      rfl
    · cases h
  · rename_i hplain
    have henc : req.manifestEnc = none := by
      rwa [hflavor, Option.not_isSome_iff_eq_none] at hplain
    split at h
    · rename_i raw hraw
      obtain ⟨refs, -, h⟩ := bind_eq_ok_iff.mp h
      cases h
      rw [henc, hraw]
      rfl
    · cases h

/-- **The pool GC marks what the commits of a workspace referenced.** -/
theorem markRows_of_agrees {rows : List StoredRow} (hws : s.access.workspaces[id]? = some ws)
    (h : ∀ row ∈ rows, s.RowAgrees json id row) :
    ∃ pinned, markRows json ws.e2e (rows.map (·.stored)) = some pinned ∧
      ∀ x, x ∈ pinned ↔ ∃ row ∈ rows, x ∈ row.refs := by
  induction rows with
  | nil => exact ⟨[], rfl, by simp⟩
  | cons row rows ih =>
    obtain ⟨hrow, hrows⟩ := List.forall_mem_cons.mp h
    obtain ⟨ws', hws', live, hlive, hmem⟩ := hrow
    cases hws.symm.trans hws'
    obtain ⟨pinned, hpinned, hmem'⟩ := ih hrows
    refine ⟨live ++ pinned, ?_, fun x => ?_⟩
    · rw [List.map_cons, markRows, hlive, hpinned]
      rfl
    · rw [List.mem_append, hmem, hmem', List.exists_mem_cons_iff]

end Relay

/-- **Commit and GC agree on chunk lists.** An accepted head or snapshot inserts a row from whose text
the chunks that it references are read again, so that the GC marks those of all its rows. An envelope is
read back with its hashes sorted and without repetitions, its text depends on their set only, a string of
base64 characters is no envelope, and the wire has the encrypted manifest of old and of new rows. -/
theorem chunk_lists_agree (json : RowJson) (hj : json.Faithful) (hash : StoredManifest → Text) :
    (∀ (s s' : Relay) (id : Text) (p : Principal) (req : HeadPutRequest),
      s.putHead id p (req.commit (json.codec hash)) = .ok s' →
      ∃ row, s.putHeadRow json id p req = .ok row ∧
        s' = s.insertHead id (s.currentSeq id + 1) row.refs ∧ s.RowAgrees json id row) ∧
    (∀ (s s' : Relay) (id : Text) (p : Principal) (req : SnapshotCreateRequest),
      s.createSnapshot id p (req.commit (json.codec hash)) = .ok s' →
      ∃ row, s.createSnapshotRow json id p req = .ok row ∧
        s' = s.insertSnapshot id row.refs ∧ s.RowAgrees json id row) ∧
    (∀ (s : Relay) (id : Text) (ws : RelayWorkspace) (rows : List StoredRow),
      s.access.workspaces[id]? = some ws → (∀ row ∈ rows, s.RowAgrees json id row) →
      ∃ pinned, markRows json ws.e2e (rows.map (·.stored)) = some pinned ∧
        ∀ x, x ∈ pinned ↔ ∃ row ∈ rows, x ∈ row.refs) ∧
    (∀ (enc : Text) (hashes : List Text), ∃ sorted,
      e2eStoredParse json (e2eStoredManifest json enc hashes) = some (enc, sorted) ∧
        sorted.Pairwise (fun a b => compare a b = .lt) ∧ ∀ h, h ∈ sorted ↔ h ∈ hashes) ∧
    (∀ (enc : Text) (hashes hashes' : List Text), (∀ h, h ∈ hashes ↔ h ∈ hashes') →
      e2eStoredManifest json enc hashes = e2eStoredManifest json enc hashes') ∧
    (∀ stored : Text, (∀ c ∈ stored, Base64Char c) →
      e2eStoredParse json stored = none ∧ e2eWireManifest json stored = stored) ∧
    (∀ (enc : Text) (hashes : List Text),
      e2eWireManifest json (e2eStoredManifest json enc hashes) = enc) := by
  refine ⟨fun s s' id p req h => ?_, fun s s' id p req h => ?_,
    fun s id ws rows hws h => Relay.markRows_of_agrees hws h, fun enc hashes => ?_,
    fun enc hashes hashes' h => e2eStoredManifest_congr h, fun stored h => ?_, fun enc hashes => ?_⟩
  · rw [Relay.putHead_eq_row] at h
    cases hrow : s.putHeadRow json id p req with
    | error e =>
      rw [hrow] at h
      cases h
    | ok row =>
      rw [hrow] at h
      cases h
      obtain ⟨ws, hws, hstored⟩ := Relay.storedRow_of_putHeadRow hrow
      exact ⟨row, rfl, rfl, ws, hws, Relay.storedRow_chunks hj hstored⟩
  · rw [Relay.createSnapshot_eq_row] at h
    cases hrow : s.createSnapshotRow json id p req with
    | error e =>
      rw [hrow] at h
      cases h
    | ok row =>
      rw [hrow] at h
      cases h
      obtain ⟨ws, hws, hstored⟩ := Relay.storedRow_of_createSnapshotRow hrow
      exact ⟨row, rfl, rfl, ws, hws, Relay.storedRow_chunks hj hstored⟩
  · exact ⟨_, e2eStoredParse_stored hj, Std.ExtTreeSet.ordered_toList, fun h => mem_sorted⟩
  · have hnone := e2eStoredParse_base64 hj h
    exact ⟨hnone, by rw [e2eWireManifest, hnone]⟩
  · rw [e2eWireManifest, e2eStoredParse_stored hj]

/-! ## A reader of envelopes -/

/-- What JSON is made of: strings, and the characters between them. -/
inductive JsonToken where
  | str (s : Text)
  | char (c : Char)
deriving DecidableEq

/-- The tokens of a text, inside a string when there is one so far. -/
def jsonTokens : Option Text → Text → List JsonToken
  | none, '"' :: s => jsonTokens (some []) s
  | none, c :: s => .char c :: jsonTokens none s
  | some read, '"' :: s => .str read :: jsonTokens none s
  | some read, '\\' :: c :: s => jsonTokens (some (read ++ [c])) s
  | some read, c :: s => jsonTokens (some (read ++ [c])) s
  | _, [] => []

/-- A string between quotes, with quotes and backslashes escaped. -/
def quoted (s : Text) : Text :=
  '"' :: s.flatMap (fun c => if c = '"' ∨ c = '\\' then ['\\', c] else [c]) ++ ['"']

/-- The elements of an array of strings, up to its bracket. -/
def quotedList : List Text → Text
  | [] => [']']
  | [s] => quoted s ++ [']']
  | s :: t :: rest => quoted s ++ ',' :: quotedList (t :: rest)

/-- The strings of the tokens of an array, and the tokens after it. -/
def tokenStrings : List JsonToken → Option (List Text × List JsonToken)
  | .str s :: .char ',' :: tokens => (tokenStrings tokens).map fun (ss, rest) => (s :: ss, rest)
  | .str s :: .char ']' :: tokens => some ([s], tokens)
  | .char ']' :: tokens => some ([], tokens)
  | _ => none

/-- The text of an envelope's value, and `null` for any other. -/
def printEnvelope : Json → Text
  | .obj [(hashesName, .arr hashes), (encName, .str enc)] =>
    '{' :: quoted hashesName ++ ':' :: '[' :: quotedList (hashes.filterMap Json.string) ++
      ',' :: quoted encName ++ ':' :: quoted enc ++ ['}']
  | _ => "null".toList

/-- The value of an envelope's text. -/
def readEnvelope (s : Text) : Option Json :=
  match jsonTokens none s with
  | .char '{' :: .str hashesName :: .char ':' :: .char '[' :: tokens =>
    match tokenStrings tokens with
    | some (hashes, [.char ',', .str encName, .char ':', .str enc, .char '}']) =>
      some (.obj [(hashesName, .arr (hashes.map .str)), (encName, .str enc)])
    | _ => none
  | _ => none

/-- `serde_json` on envelopes alone: it reads no manifest and no other value. -/
def envelopeJson : RowJson where
  print := printEnvelope
  read := readEnvelope
  manifest _ := none

/-- A quoted string is a token. -/
theorem jsonTokens_quoted (s rest : Text) :
    jsonTokens none (quoted s ++ rest) = .str s :: jsonTokens none rest := by
  have hread : ∀ (s read : Text), jsonTokens (some read)
      (s.flatMap (fun c => if c = '"' ∨ c = '\\' then ['\\', c] else [c]) ++ '"' :: rest) =
        .str (read ++ s) :: jsonTokens none rest := by
    intro s
    induction s with
    | nil => intro read; simp [jsonTokens]
    | cons c s ih =>
      intro read
      by_cases hc : c = '"' ∨ c = '\\'
      · simp [hc, jsonTokens, ih]
      · obtain ⟨hquote, hslash⟩ := not_or.mp hc
        simp [hquote, hslash, jsonTokens, ih]
  have h := hread s []
  simpa [quoted, jsonTokens] using h

/-- An array of strings is read back. -/
theorem tokenStrings_quotedList (rest : Text) : ∀ ss : List Text,
    tokenStrings (jsonTokens none (quotedList ss ++ rest)) = some (ss, jsonTokens none rest)
  | [] => by simp [quotedList, jsonTokens, tokenStrings]
  | [s] => by
    rw [quotedList, List.append_assoc, jsonTokens_quoted]
    simp [jsonTokens, tokenStrings]
  | s :: t :: ss => by
    have ih := tokenStrings_quotedList rest (t :: ss)
    rw [quotedList, List.append_assoc, jsonTokens_quoted, List.cons_append]
    simp [jsonTokens, tokenStrings, ih]

/-- A character between strings is one of the text. -/
theorem mem_of_mem_jsonTokens {c : Char} : ∀ {read : Option Text} {s : Text},
    .char c ∈ jsonTokens read s → c ∈ s := by
  intro read s h
  fun_induction jsonTokens read s with
  | case1 s ih => exact List.mem_cons_of_mem _ (ih h)
  | case2 c' s hquote ih =>
    rcases List.mem_cons.mp h with hc | h
    · cases hc
      exact List.mem_cons_self
    · exact List.mem_cons_of_mem _ (ih h)
  | case3 read s ih =>
    rcases List.mem_cons.mp h with hc | h
    · cases hc
    · exact List.mem_cons_of_mem _ (ih h)
  | case4 read c' s ih => exact List.mem_cons_of_mem _ (List.mem_cons_of_mem _ (ih h))
  | case5 read c' s hquote hslash ih => exact List.mem_cons_of_mem _ (ih h)
  | case6 => cases h

/-- What the reader reads is an object, and begins with a brace. -/
theorem readEnvelope_brace {s : Text} {v : Json} (h : readEnvelope s = some v) :
    '{' ∈ s ∧ ∃ fields, v = .obj fields := by
  unfold readEnvelope at h
  split at h
  · rename_i tokens htokens
    refine ⟨mem_of_mem_jsonTokens (htokens ▸ List.mem_cons_self), ?_⟩
    split at h
    · cases h
      exact ⟨_, rfl⟩
    · cases h
  · cases h

/-- **The reader is faithful.** -/
theorem envelopeJson_faithful : envelopeJson.Faithful where
  envelope e := by
    have hstrings : (e.chunkHashes.map Json.str).filterMap Json.string = e.chunkHashes := by
      rw [List.filterMap_map]
      exact List.filterMap_some
    have hprint : printEnvelope e.serialize = '{' :: quoted "chunk_hashes".toList ++ ':' :: '[' ::
        quotedList e.chunkHashes ++ ',' :: quoted "manifest_enc".toList ++ ':' ::
          quoted e.manifestEnc ++ ['}'] := by
      rw [E2eStoredManifest.serialize, printEnvelope, hstrings]
    show readEnvelope (printEnvelope e.serialize) = some e.serialize
    rw [hprint]
    unfold readEnvelope E2eStoredManifest.serialize
    simp [jsonTokens, jsonTokens_quoted, tokenStrings_quotedList]
  brace _ _ h := (readEnvelope_brace h).1
  bracket _ _ h := by
    obtain ⟨-, fields, hv⟩ := readEnvelope_brace h
    cases hv

/-- Thirty bytes in base64, two chunks, and an encrypted head that names one of them twice. -/
def sealedText : Text := (List.replicate 10 "QUJD".toList).flatten
def chunkA : Text := .replicate 64 'a'
def chunk0 : Text := .replicate 64 '0'

def envelopeHead : HeadPutRequest where
  device := some "d".toList
  baseSeq := 0
  manifest := none
  manifestEnc := some sealedText
  chunkHashes := some [chunkA, chunk0, chunkA]

/-- A relay with an encrypted workspace and the two chunks. -/
def envelopeRelay : Relay :=
  .boot { workspaces := .ofList [("w".toList, ⟨some "u".toList, none, true⟩)] compare, teams := ∅ }
    ∅ ∅ [("w".toList, chunkA), ("w".toList, chunk0)] (.ofList [(chunkA, 0), (chunk0, 0)] compare) 0

/-- The head is committed: its row agrees, its envelope holds each hash once, and the wire has the
encrypted manifest, as it has of a row from before. -/
theorem chunk_lists_agree_envelope : ∃ s' row,
    envelopeRelay.putHead "w".toList (.user "u".toList)
        (envelopeHead.commit (envelopeJson.codec fun _ => [])) = .ok s' ∧
      s' = envelopeRelay.insertHead "w".toList 1 row.refs ∧
      envelopeRelay.RowAgrees envelopeJson "w".toList row ∧
      row.stored = e2eStoredManifest envelopeJson sealedText [chunk0, chunkA] ∧
      e2eStoredParse envelopeJson row.stored = some (sealedText, [chunk0, chunkA]) ∧
      e2eWireManifest envelopeJson row.stored = sealedText ∧
      e2eWireManifest envelopeJson sealedText = sealedText := by
  obtain ⟨hput, -, -, -, hcongr, hbare, hwire⟩ :=
    chunk_lists_agree envelopeJson envelopeJson_faithful fun _ => []
  have hok : (envelopeRelay.putHead "w".toList (.user "u".toList)
      (envelopeHead.commit (envelopeJson.codec fun _ => []))).toBool = true := by
    decide +kernel
  cases hcommit : envelopeRelay.putHead "w".toList (.user "u".toList)
      (envelopeHead.commit (envelopeJson.codec fun _ => [])) with
  | error e =>
    rw [hcommit] at hok
    cases hok
  | ok s' =>
    obtain ⟨row, hrow, hs', hagrees⟩ := hput _ _ _ _ _ hcommit
    have hset : ∀ h, h ∈ [chunkA, chunk0, chunkA] ↔ h ∈ [chunk0, chunkA] := by
      intro h
      simp only [List.mem_cons, List.not_mem_nil, or_false]
      constructor
      · rintro (h | h | h)
        · exact .inr h
        · exact .inl h
        · exact .inr h
      · rintro (h | h)
        · exact .inr (.inl h)
        · exact .inl h
    obtain ⟨ws, -, hstoredRow⟩ := Relay.storedRow_of_putHeadRow hrow
    have hstored : row.stored = e2eStoredManifest envelopeJson sealedText [chunk0, chunkA] :=
      (Relay.stored_text hstoredRow).symm.trans (hcongr _ _ _ hset)
    have hsorted : (Std.ExtTreeSet.ofList [chunk0, chunkA] compare).toList = [chunk0, chunkA] := by
      decide +kernel
    have hsextets : sealedText = ((List.replicate 10 [16, 20, 9, 3]).flatten).map b64Char := by
      decide +kernel
    have hbase64 : ∀ c ∈ sealedText, Base64Char c := by
      rw [hsextets]
      intro c hc
      obtain ⟨v, -, rfl⟩ := List.mem_map.mp hc
      exact .inl (b64Char_mem v)
    refine ⟨s', row, rfl, hs', hagrees, hstored, ?_, ?_, (hbare sealedText hbase64).2⟩
    · rw [hstored, e2eStoredParse_stored envelopeJson_faithful, hsorted]
    · rw [hstored]
      exact hwire _ _

end Pear
