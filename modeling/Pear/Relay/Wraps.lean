import Pear.Relay.Teams
import Pear.Bundles
import Pear.Lib.Runs

/-!
# Wrapped keys and removals

Where a workspace's key is stored for a user, and the requests that decide who is answered it
(`routes.rs`, `db.rs`): workspaces are made and attached to teams, writers store and delete wraps, and
team requests are those of `Pear.Relay.Teams`. A wrap is keyed by its workspace, and a removal deletes
those of the workspaces that are attached to the team when it runs. `wrap_ended` says that in runs whose
removals find the workspaces still attached no wrap outlives the membership, and `wrap_outlives` how one
does that was moved away for the time of the removal.
-/

namespace Pear

/-! ## The tables -/

/-- A row of `workspaces`. -/
structure WorkspaceRow extends RelayWorkspace where
  name : Text

/-- The tables behind the wrapped keys, by their primary keys. -/
structure WrapTables where
  users : Std.ExtTreeMap Text KeyBundle compare
  teams : Std.ExtTreeMap Text TeamRow compare
  teamMembers : Std.ExtTreeMap Text (Std.ExtTreeMap Text Text compare) compare
  workspaces : Std.ExtTreeMap Text WorkspaceRow compare
  wrappedKeys : Std.ExtTreeMap Text (Std.ExtTreeMap Text Text compare) compare

/-- Why a request is refused. The constructors carry the values the messages quote. -/
inductive WrapError where
  /-- "workspace id {id} must be 1-128 chars of [A-Za-z0-9._-] …" -/
  | badWorkspaceId (id : Text)
  /-- "workspace name {name} must be 1-128 chars, …" -/
  | badWorkspaceName (name : Text)
  /-- "blob is not a wrapped key (lowercase hex, …)" -/
  | badBlob
  /-- "workspace {id} requires at least the {min} role (you are {role})" -/
  | forbidden (id : Text) (min role : Role)
  /-- "attaching a workspace to team {id} requires owner/writer in the team" -/
  | attachForbidden (team : Text)
  /-- "workspace {id} does not exist" -/
  | noWorkspace (id : Text)
  /-- "team {id} does not exist" -/
  | noTeam (id : Text)
  /-- "user {user} does not exist" -/
  | noUser (user : Text)
  /-- "no key is wrapped for you on workspace {id}" -/
  | noWrap (id : Text)
  /-- "workspace {id} already exists as … and cannot be re-registered as …" (kind `e2e_mismatch`) -/
  | e2eMismatch (id : Text) (existing e2e : Bool)
  /-- "workspace {id} already exists" (kind `id_conflict`) -/
  | idConflict (id : Text)
  /-- "workspace name {name} is already used in this team" -/
  | nameConflict (name : Text)
  /-- "internal server error" -/
  | internal
deriving DecidableEq

/-- The status of a refusal. -/
def WrapError.status : WrapError → Nat
  | .badWorkspaceId _ | .badWorkspaceName _ | .badBlob => 400
  | .forbidden _ _ _ | .attachForbidden _ => 403
  | .noWorkspace _ | .noTeam _ | .noUser _ | .noWrap _ => 404
  | .e2eMismatch _ _ _ | .idConflict _ | .nameConflict _ => 409
  | .internal => 500

/-- `CreateWorkspaceOutcome` -/
inductive CreateWorkspaceOutcome where
  | created
  | idConflict
  | nameConflict

/-- `AttachOutcome` -/
inductive AttachOutcome where
  | attached
  | nameConflict

namespace WrapTables

/-- The tables as a team request sees them. -/
def teamTables (db : WrapTables) : TeamTables where
  users := db.users
  teams := db.teams
  teamMembers := db.teamMembers
  workspaces := db.workspaces.map fun _ ws => ws.teamId
  wrappedKeys := db.wrappedKeys

/-- The tables after a team request, which writes three of them. -/
def setTeams (db : WrapTables) (t : TeamTables) : WrapTables :=
  { db with teams := t.teams, teamMembers := t.teamMembers, wrappedKeys := t.wrappedKeys }

/-- `member_role` -/
def memberRole (db : WrapTables) (team user : Text) : Option Text :=
  db.teamTables.memberRole team user

/-- Does another workspace of the team have the name (`workspaces_team_name`)? -/
def nameTaken (db : WrapTables) (id name team : Text) : Bool :=
  db.workspaces.toList.any fun (id', ws) =>
    id' ≠ id && ws.teamId = some team && ws.name = name

/-- `INSERT OR IGNORE INTO workspaces`, and which conflict it met (`create_workspace`). -/
def createWorkspace (db : WrapTables) (id : Text) (row : WorkspaceRow) :
    CreateWorkspaceOutcome × WrapTables :=
  if id ∉ db.workspaces ∧ row.teamId.any (db.nameTaken id row.name) = false then
    (.created, { db with workspaces := db.workspaces.insert id row })
  else if id ∈ db.workspaces then (.idConflict, db)
  else (.nameConflict, db)

/-- `attach_team`: a workspace that is attached moves. -/
def attachTeam (db : WrapTables) (id team : Text) : AttachOutcome × WrapTables :=
  match db.workspaces[id]? with
  | none => (.attached, db)
  | some ws =>
    if db.nameTaken id ws.name team then (.nameConflict, db)
    else
      let ws := { ws with teamId := some team }
      (.attached, { db with workspaces := db.workspaces.insert id ws })

/-- The rows of `wrapped_keys` of a workspace. -/
def wrapsOf (db : WrapTables) (id : Text) : Std.ExtTreeMap Text Text compare :=
  db.wrappedKeys[id]?.getD ∅

/-- `INSERT INTO wrapped_keys … ON CONFLICT … DO UPDATE SET blob` (`put_wrapped_key`). -/
def putWrappedKey (db : WrapTables) (id user blob : Text) : WrapTables :=
  { db with wrappedKeys := db.wrappedKeys.insert id ((db.wrapsOf id).insert user blob) }

/-- `get_wrapped_key` -/
def getWrappedKey (db : WrapTables) (id user : Text) : Option Text := (db.wrapsOf id)[user]?

/-- `DELETE FROM wrapped_keys` (`delete_wrapped_key`). -/
def deleteWrappedKey (db : WrapTables) (id user : Text) : WrapTables :=
  { db with wrappedKeys := db.wrappedKeys.insert id ((db.wrapsOf id).erase user) }

/-! ## Roles -/

/-- The admin owns everything; the creator owns the workspace; otherwise the role in its team, when
it parses (`role_on`). -/
def roleOn (db : WrapTables) (ws : WorkspaceRow) : Principal → Option Role
  | .admin => some .owner
  | .user name =>
    if ws.owner = some name then some .owner
    else ws.teamId.bind fun team => (db.memberRole team name).bind Role.parse

/-- Load the workspace and gate on a minimum role (`require_role`). -/
def requireRole (db : WrapTables) (id : Text) (p : Principal) (min : Role) :
    Except WrapError WorkspaceRow :=
  match db.workspaces[id]? with
  | none => .error (.noWorkspace id)
  | some ws =>
    match db.roleOn ws p with
    | none => .error (.noWorkspace id)
    | some role => if role.rank < min.rank then .error (.forbidden id min role) else .ok ws

/-- The team half of the attach rule (`require_team_writer`). -/
def requireTeamWriter (db : WrapTables) (team : Text) (p : Principal) : Except WrapError Unit :=
  match (db.teamTables.callerRole team p).bind Role.parse with
  | some .owner | some .writer => .ok ()
  | _ => .error (.attachForbidden team)

end WrapTables

/-! ## The requests -/

/-- The body of a successful answer. -/
inductive WrapAnswer where
  | created (id : Text)
  | attached (id team : Text)
  | stored (user blob : Text)
  | noContent
deriving DecidableEq

/-- The id check of `create_workspace`. -/
def validWorkspaceId (id : Text) : Bool :=
  id ≠ [] && byteLen id ≤ 128 && id.all (fun c => c.isAlphanum || c ∈ ['-', '_', '.']) &&
    id.any Char.isAlphanum

/-- `WRAPPED_KEY_MIN_LEN` and `WRAPPED_KEY_MAX_LEN`: the key, the nonce and the tag of an empty
payload, and a ceiling. -/
def wrappedKeyMinLen : Nat := 32 + 12 + 16
def wrappedKeyMaxLen : Nat := 64 * 1024

/-- `is_wrapped_key_blob` -/
def isWrappedKeyBlob (blob : Text) : Bool :=
  let rawLen := byteLen blob / 2
  byteLen blob % 2 = 0 && (wrappedKeyMinLen ≤ rawLen && rawLen ≤ wrappedKeyMaxLen) &&
    blob.all fun c => ('0' ≤ c && c ≤ '9') || ('a' ≤ c && c ≤ 'f')

namespace WrapTables

/-- `POST /workspaces`. -/
def serveCreate (db : WrapTables) (p : Principal) (id name : Text) (team : Option Text)
    (e2e fault : Bool) : Except WrapError (WrapAnswer × WrapTables) := do
  refuseIf fault .internal
  refuseIf (validWorkspaceId id = false) (.badWorkspaceId id)
  refuseIf (Relay.validName name = false) (.badWorkspaceName name)
  team.forM fun team => do
    refuseIf (team ∉ db.teams) (.noTeam team)
    db.requireTeamWriter team p
  let owner := match p with
    | .admin => none
    | .user name => some name
  match db.createWorkspace id { owner, teamId := team, e2e, name } with
  | (.created, db') => return (.created id, db')
  | (.idConflict, _) =>
    -- Who holds no role on the workspace that is there does not learn of it.
    let existing ← db.requireRole id p .reader
    refuseIf (existing.e2e ≠ e2e) (.e2eMismatch id existing.e2e e2e)
    throw (.idConflict id)
  | (.nameConflict, _) => throw (.nameConflict name)

/-- `POST /workspaces/:id/team`. -/
def serveAttach (db : WrapTables) (p : Principal) (id team : Text) (fault : Bool) :
    Except WrapError (WrapAnswer × WrapTables) := do
  refuseIf fault .internal
  let ws ← db.requireRole id p .owner
  refuseIf (team ∉ db.teams) (.noTeam team)
  db.requireTeamWriter team p
  match db.attachTeam id team with
  | (.attached, db') => return (.attached id team, db')
  | (.nameConflict, _) => throw (.nameConflict ws.name)

/-- `PUT /workspaces/:id/keys/:user`. -/
def servePut (db : WrapTables) (p : Principal) (id user blob : Text) (fault : Bool) :
    Except WrapError (WrapAnswer × WrapTables) := do
  refuseIf (isWrappedKeyBlob blob = false) .badBlob
  refuseIf fault .internal
  let _ ← db.requireRole id p .writer
  refuseIf (user ∉ db.users) (.noUser user)
  return (.stored user blob, db.putWrappedKey id user blob)

/-- `DELETE /workspaces/:id/keys/:user`. -/
def serveDelete (db : WrapTables) (p : Principal) (id user : Text) (fault : Bool) :
    Except WrapError (WrapAnswer × WrapTables) := do
  refuseIf fault .internal
  let _ ← db.requireRole id p .writer
  return (.noContent, db.deleteWrappedKey id user)

/-- `GET /workspaces/:id/keys/me`. The admin holds no user identity. -/
def getMyWrappedKey (db : WrapTables) (p : Principal) (id : Text) : Except WrapError Text := do
  let _ ← db.requireRole id p .reader
  let name := match p with
    | .user name => name
    | .admin => []
  match db.getWrappedKey id name with
  | some blob => return blob
  | none => throw (.noWrap id)

end WrapTables

/-- A request that writes the tables. -/
inductive WrapRequest where
  | team (r : TeamRequest)
  | createWorkspace (id name : Text) (team : Option Text) (e2e : Bool)
  | attachTeam (id team : Text)
  | putWrappedKey (id user blob : Text)
  | deleteWrappedKey (id user : Text)

/-- A request with who asks and the call of it that fails. -/
structure WrapEvent where
  principal : Principal
  request : WrapRequest
  fault : Option TeamFault

namespace WrapTables

/-- What a request leaves. One that is refused changes nothing. -/
def after (db : WrapTables) : Except WrapError (WrapAnswer × WrapTables) → WrapTables
  | .ok (_, db') => db'
  | .error _ => db

/-- The tables after a team request. -/
def serveTeam (db : WrapTables) (p : Principal) (r : TeamRequest) (fault : Option TeamFault) :
    WrapTables :=
  db.setTeams (TeamServer.serve ⟨db.teamTables, none⟩ ⟨p, r, fault⟩).disk

/-- The tables after a request. The database lock makes each request one step. -/
def serve (db : WrapTables) (e : WrapEvent) : WrapTables :=
  let fault := e.fault.isSome
  match e.request with
  | .team r => db.serveTeam e.principal r e.fault
  | .createWorkspace id name team e2e =>
    db.after (db.serveCreate e.principal id name team e2e fault)
  | .attachTeam id team => db.after (db.serveAttach e.principal id team fault)
  | .putWrappedKey id user blob => db.after (db.servePut e.principal id user blob fault)
  | .deleteWrappedKey id user => db.after (db.serveDelete e.principal id user fault)

/-- The team a workspace is attached to. -/
def teamOf (db : WrapTables) (id : Text) : Option Text := db.workspaces[id]?.bind (·.teamId)

/-- The workspaces that are attached, with their teams. -/
def attachments (db : WrapTables) : List (Text × Text) :=
  db.workspaces.toList.filterMap fun (id, ws) => ws.teamId.map (id, ·)

/-- A user is answered 404 on a workspace's key. -/
def Answers404 (db : WrapTables) (id user : Text) : Prop :=
  ∃ e, db.getMyWrappedKey (.user user) id = .error e ∧ e.status = 404

end WrapTables

/-! ## Runs of requests -/

/-- The tables with what is remembered of the run. -/
structure WrapSystem where
  db : WrapTables
  /-- The workspaces and the teams they were attached to. -/
  attached : List (Text × Text)
  /-- The workspaces and users of the wraps stored, with the team the workspace was attached to. -/
  stored : List (Text × Text × Text)
  /-- The workspaces and users whose wrap a removal is to have ended, while no new one was stored. -/
  ended : List (Text × Text)

namespace WrapSystem

/-- The workspace and user of a wrap that the request stores. -/
def stores (s : WrapSystem) (e : WrapEvent) : Option (Text × Text) :=
  match e.request with
  | .putWrappedKey id user blob =>
    if (s.db.servePut e.principal id user blob e.fault.isSome).isOk then some (id, user) else none
  | _ => none

/-- The team and user of a membership that the request ends. -/
def removes (s : WrapSystem) (e : WrapEvent) : Option (Text × Text) :=
  match e.request with
  | .team (.remove team user) =>
    if (TeamServer.removeMember ⟨s.db.teamTables, none⟩ e.principal team user e.fault).1.isOk ∧
      (s.db.memberRole team user).isSome then some (team, user) else none
  | _ => none

/-- A removal from a team is to end a user's wrap of a workspace: one was stored while the workspace was
attached to the team, the user does not own it, and is in no other team that it was attached to. -/
def Ends (s : WrapSystem) (team user id : Text) : Prop :=
  (id, user, team) ∈ s.stored ∧ s.db.workspaces[id]?.bind (·.owner) ≠ some user ∧
    ∀ a ∈ s.attached, a.1 = id → a.2 ≠ team → s.db.memberRole a.2 user = none

instance (s : WrapSystem) (team user id : Text) : Decidable (s.Ends team user id) :=
  inferInstanceAs (Decidable (_ ∧ _ ∧ ∀ a ∈ s.attached, a.1 = id → a.2 ≠ team → _))

/-- The wraps that a removal is to end. -/
def endedBy (s : WrapSystem) (team user : Text) : List (Text × Text) :=
  (s.stored.filter fun k => k.2.1 = user ∧ s.Ends team user k.1).map fun k => (k.1, user)

/-- One request. -/
def step (s : WrapSystem) (e : WrapEvent) : Option WrapSystem :=
  let db := s.db.serve e
  some
    { db
      attached := db.attachments ++ s.attached
      stored := match s.stores e with
        | some (id, user) => ((s.db.teamOf id).map (id, user, ·)).toList ++ s.stored
        | none => s.stored
      ended := match s.removes e with
        | some (team, user) => s.endedBy team user ++ s.ended
        | none => s.ended.filter fun k => s.stores e ≠ some k }

/-- Nothing is remembered of the time before. -/
def boot (db : WrapTables) : WrapSystem :=
  { db, attached := db.attachments, stored := [], ended := [] }

/-- A removal finds each workspace whose wrap it is to end still attached to the team, or without a
wrap for the user. -/
def FindsAttached (s : WrapSystem) (e : WrapEvent) : Prop :=
  ∀ r ∈ s.removes e, ∀ k ∈ s.endedBy r.1 r.2,
    s.db.teamOf k.1 = some r.1 ∨ s.db.getWrappedKey k.1 k.2 = none

instance (s : WrapSystem) (e : WrapEvent) : Decidable (s.FindsAttached e) :=
  inferInstanceAs (Decidable (∀ r ∈ s.removes e, ∀ k ∈ s.endedBy r.1 r.2, _ ∨ _))

/-- Every wrap that a removal is to have ended is refused. -/
def EndedRefused (s : WrapSystem) : Prop := ∀ k ∈ s.ended, s.db.Answers404 k.1 k.2

end WrapSystem

/-! ## What a request does to the wraps -/

section
variable {t : TeamTables} {p : Principal} {team user : Text} {fault : Option TeamFault}

/-- The wraps after those of a team's workspaces were deleted for a user. -/
theorem TeamTables.deleteWrappedKeys_get (t : TeamTables) (team user id other : Text) :
    ((t.deleteWrappedKeys team user).wrappedKeys[id]?.getD ∅)[other]? =
      if t.workspaces[id]? = some (some team) ∧ user = other then none
      else (t.wrappedKeys[id]?.getD ∅)[other]? := by
  unfold deleteWrappedKeys
  dsimp only
  rw [Std.ExtTreeMap.getElem?_map]
  cases hw : t.wrappedKeys[id]? with
  | none => simp
  | some rows =>
    by_cases hteam : t.workspaces[id]? = some (some team)
    · simp [hteam, Lib.getElem?_erase_eq]
    · simp [hteam]

/-- The statements of a new team write no wrap. -/
theorem TeamTables.createTeamWithOwner_wrappedKeys {db db' : TeamTables} {id owner : Text}
    {row : TeamRow} {stmt : TeamTables → Option TeamTables}
    (hstmt : stmt ∈ t.createTeamWithOwner id row owner) (hrun : stmt db = some db') :
    db'.wrappedKeys = db.wrappedKeys := by
  unfold createTeamWithOwner at hstmt
  rcases List.mem_cons.mp hstmt with rfl | hstmt
  · cases hrun
    unfold createTeam
    split <;> rfl
  · split at hstmt
    · cases hstmt
    · cases List.mem_singleton.mp hstmt
      cases hrun
      rfl

/-- Making a team stores and deletes no wrap. -/
theorem TeamServer.createTeam_wrappedKeys (id name : Text) (syncEnv : Option Bool) (now : Int) :
    (createTeam ⟨t, none⟩ p id name syncEnv now fault).2.disk.wrappedKeys = t.wrappedKeys := by
  unfold createTeam
  cases p with
  | admin => rfl
  | user user =>
    dsimp only
    split
    · rfl
    · have hkeeps := Lib.Conn.withTx_keeps (·.wrappedKeys)
        (t.createTeamWithOwner id ⟨name, now, syncEnv.getD true⟩ user) (TeamFault.tx? fault) t
        (fun stmt hstmt db db' hrun => TeamTables.createTeamWithOwner_wrappedKeys hstmt hrun)
      split
      · rename_i hrun
        rw [hrun] at hkeeps
        exact hkeeps
      · rename_i hrun
        rw [hrun] at hkeeps
        split <;> exact hkeeps

/-- Neither does adding a member. -/
theorem TeamServer.addMember_wrappedKeys (role : Text) :
    (addMember ⟨t, none⟩ p team user role fault).2.disk.wrappedKeys = t.wrappedKeys := by
  unfold addMember
  split
  · rfl
  · split
    · rfl
    · dsimp only
      split <;> rfl

/-- A removal that takes a membership deletes the user's wraps of the workspaces that are attached to the
team. Any other deletes none. -/
theorem TeamServer.removeMember_wrappedKeys (t : TeamTables) (p : Principal) (team user : Text)
    (fault : Option TeamFault) :
    (removeMember ⟨t, none⟩ p team user fault).2.disk.wrappedKeys =
      if (removeMember ⟨t, none⟩ p team user fault).1.isOk ∧ (t.memberRole team user).isSome then
        (t.deleteWrappedKeys team user).wrappedKeys
      else t.wrappedKeys := by
  unfold removeMember
  cases t.checkRemoveMember p team user (fault = some .query) with
  | error e => simp [Except.isOk, Except.toBool]
  | ok =>
    dsimp only
    rcases Lib.Conn.withTx_cases (t.removeMember team user) (TeamFault.tx? fault) t with
      hfail | ⟨db, hrun, hok⟩
    · rw [hfail]
      simp [Except.isOk, Except.toBool]
    · rw [hok]
      unfold TeamTables.removeMember at hrun
      by_cases hmember : (t.memberRole team user).isSome
      · rw [if_pos hmember] at hrun
        have : (t.deleteMember team user).deleteWrappedKeys team user = db := by simpa using hrun
        rw [← this, if_pos ⟨rfl, hmember⟩]
        rfl
      · rw [if_neg hmember] at hrun
        have : t.deleteMember team user = db := by simpa using hrun
        rw [← this, if_neg fun h => hmember h.2]
        rfl

end

namespace WrapTables

variable {db db' : WrapTables} {id id' user user' team : Text}

/-- The wraps after the rows of a workspace were set. -/
theorem getWrappedKey_insert {rows : Std.ExtTreeMap Text Text compare} :
    getWrappedKey { db with wrappedKeys := db.wrappedKeys.insert id rows } id' user' =
      if id = id' then rows[user']? else db.getWrappedKey id' user' := by
  unfold getWrappedKey wrapsOf
  rw [Lib.getElem?_insert_eq]
  split <;> rfl

/-- The wraps after one was stored. -/
theorem getWrappedKey_put {blob : Text} :
    (db.putWrappedKey id user blob).getWrappedKey id' user' =
      if id = id' ∧ user = user' then some blob else db.getWrappedKey id' user' := by
  unfold putWrappedKey
  rw [getWrappedKey_insert, Lib.getElem?_insert_eq]
  by_cases hid : id = id'
  · subst hid
    simp [getWrappedKey]
  · simp [hid]

/-- The wraps after one was deleted. -/
theorem getWrappedKey_delete :
    (db.deleteWrappedKey id user).getWrappedKey id' user' =
      if id = id' ∧ user = user' then none else db.getWrappedKey id' user' := by
  unfold deleteWrappedKey
  rw [getWrappedKey_insert, Lib.getElem?_erase_eq]
  by_cases hid : id = id'
  · subst hid
    simp [getWrappedKey]
  · simp [hid]

/-- The tables of wraps say which wraps there are. -/
theorem getWrappedKey_congr (h : db'.wrappedKeys = db.wrappedKeys) :
    db'.getWrappedKey id user = db.getWrappedKey id user := by
  unfold getWrappedKey wrapsOf
  rw [h]

/-- The team column of a workspace. -/
theorem teamTables_workspaces :
    db.teamTables.workspaces[id]? = some (some team) ↔ db.teamOf id = some team := by
  unfold teamTables teamOf
  dsimp only
  rw [Std.ExtTreeMap.getElem?_map]
  cases db.workspaces[id]? <;> simp

/-- A refused request changes nothing, and one that is not has its own tables. -/
theorem after_cases (db : WrapTables) (r : Except WrapError (WrapAnswer × WrapTables)) :
    (∃ a db', r = .ok (a, db') ∧ db.after r = db') ∨ r.isOk = false ∧ db.after r = db := by
  rcases r with e | ⟨a, db'⟩
  · exact .inr ⟨rfl, rfl⟩
  · exact .inl ⟨a, db', rfl, rfl⟩

/-- A new workspace, or one that moves, has the wraps that its id had. -/
theorem createWorkspace_wrappedKeys (row : WorkspaceRow) :
    (db.createWorkspace id row).2.wrappedKeys = db.wrappedKeys := by
  unfold createWorkspace
  split
  · rfl
  · split <;> rfl

theorem attachTeam_wrappedKeys : (db.attachTeam id team).2.wrappedKeys = db.wrappedKeys := by
  unfold attachTeam
  split
  · rfl
  · split <;> rfl

variable {p : Principal} {a : WrapAnswer} {fault : Bool}

theorem serveCreate_wrappedKeys {name : Text} {team : Option Text} {e2e : Bool}
    (h : db.serveCreate p id name team e2e fault = .ok (a, db')) :
    db'.wrappedKeys = db.wrappedKeys := by
  simp only [serveCreate, bind_eq_ok_iff] at h
  obtain ⟨-, -, -, -, -, -, -, -, h⟩ := h
  split at h
  · rename_i hcreate
    cases h
    have hkeys := congrArg (·.2.wrappedKeys) hcreate
    rw [createWorkspace_wrappedKeys] at hkeys
    exact hkeys.symm
  · simp only [bind_eq_ok_iff] at h
    obtain ⟨existing, -, -, -, hthrow⟩ := h
    cases hthrow
  · cases h

theorem serveAttach_wrappedKeys (h : db.serveAttach p id team fault = .ok (a, db')) :
    db'.wrappedKeys = db.wrappedKeys := by
  simp only [serveAttach, bind_eq_ok_iff] at h
  obtain ⟨-, -, ws, -, -, -, -, -, h⟩ := h
  split at h
  · rename_i hattach
    cases h
    have hkeys := congrArg (·.2.wrappedKeys) hattach
    rw [attachTeam_wrappedKeys] at hkeys
    exact hkeys.symm
  · cases h

theorem servePut_eq {blob : Text} (h : db.servePut p id user blob fault = .ok (a, db')) :
    db' = db.putWrappedKey id user blob := by
  simp only [servePut, bind_eq_ok_iff] at h
  obtain ⟨-, -, -, -, ws, -, -, -, h⟩ := h
  cases h
  rfl

theorem serveDelete_eq (h : db.serveDelete p id user fault = .ok (a, db')) :
    db' = db.deleteWrappedKey id user := by
  simp only [serveDelete, bind_eq_ok_iff] at h
  obtain ⟨-, -, ws, -, h⟩ := h
  cases h
  rfl

/-- Who holds no role, or no wrap, is answered 404, and nobody else. -/
theorem answers404_iff : db.Answers404 id user ↔
    db.workspaces[id]?.bind (db.roleOn · (.user user)) = none ∨ db.getWrappedKey id user = none := by
  unfold Answers404 getMyWrappedKey requireRole
  cases db.workspaces[id]? with
  | none => exact ⟨fun _ => .inl rfl, fun _ => ⟨.noWorkspace id, rfl, rfl⟩⟩
  | some ws =>
    dsimp only [Option.bind_some]
    cases db.roleOn ws (.user user) with
    | none => exact ⟨fun _ => .inl rfl, fun _ => ⟨.noWorkspace id, rfl, rfl⟩⟩
    | some role =>
      dsimp only
      rw [if_neg (by simp [Role.rank])]
      cases hw : db.getWrappedKey id user with
      | none => exact ⟨fun _ => .inr rfl, fun _ => ⟨.noWrap id, rfl, rfl⟩⟩
      | some blob =>
        constructor
        · rintro ⟨e, he, -⟩
          simp [bind, Except.bind, pure, Except.pure] at he
        · rintro (h | h) <;> cases h

end WrapTables

namespace WrapSystem

variable {s s' : WrapSystem} {e : WrapEvent}

/-- All a request does to the wraps, as the run remembers it. -/
inductive WrapsAfter (s : WrapSystem) (e : WrapEvent) (get : Text → Text → Option Text) : Prop
  | same (hs : s.stores e = none) (hr : s.removes e = none)
    (h : ∀ id user, get id user = s.db.getWrappedKey id user)
  | stored (id user blob : Text) (hs : s.stores e = some (id, user)) (hr : s.removes e = none)
    (h : ∀ id' user', get id' user' =
      if id = id' ∧ user = user' then some blob else s.db.getWrappedKey id' user')
  | deleted (id user : Text) (hs : s.stores e = none) (hr : s.removes e = none)
    (h : ∀ id' user', get id' user' =
      if id = id' ∧ user = user' then none else s.db.getWrappedKey id' user')
  | removed (team user : Text) (hs : s.stores e = none) (hr : s.removes e = some (team, user))
    (h : ∀ id user', get id user' =
      if s.db.teamOf id = some team ∧ user = user' then none else s.db.getWrappedKey id user')

/-- A team request touches wraps only when it takes a membership. -/
theorem wrapsAfter_team (p : Principal) (r : TeamRequest) (fault : Option TeamFault) :
    WrapsAfter s ⟨p, .team r, fault⟩ (s.db.serveTeam p r fault).getWrappedKey := by
  cases r with
  | create id name syncEnv now =>
    exact .same rfl rfl fun _ _ =>
      WrapTables.getWrappedKey_congr (TeamServer.createTeam_wrappedKeys id name syncEnv now)
  | add team user role =>
    exact .same rfl rfl fun _ _ =>
      WrapTables.getWrappedKey_congr (TeamServer.addMember_wrappedKeys role)
  | remove team user =>
    have hkeys := TeamServer.removeMember_wrappedKeys s.db.teamTables p team user fault
    split at hkeys
    · rename_i hok
      refine .removed team user rfl (if_pos hok) fun id user' => ?_
      have hget := TeamTables.deleteWrappedKeys_get s.db.teamTables team user id user'
      rw [← hkeys] at hget
      simp only [WrapTables.teamTables_workspaces] at hget
      exact hget
    · rename_i hno
      exact .same rfl (if_neg hno) fun _ _ => WrapTables.getWrappedKey_congr hkeys

/-- **What a request does to the wraps.** -/
theorem wrapsAfter_serve (s : WrapSystem) (e : WrapEvent) :
    WrapsAfter s e (s.db.serve e).getWrappedKey := by
  obtain ⟨p, r, fault⟩ := e
  cases r with
  | team r => exact wrapsAfter_team p r fault
  | createWorkspace id name team e2e =>
    refine .same rfl rfl fun _ _ => WrapTables.getWrappedKey_congr ?_
    rcases WrapTables.after_cases s.db (s.db.serveCreate p id name team e2e fault.isSome)
      with ⟨a, db', hok, hafter⟩ | ⟨-, hafter⟩
    · exact (congrArg _ hafter).trans (WrapTables.serveCreate_wrappedKeys hok)
    · exact congrArg _ hafter
  | attachTeam id team =>
    refine .same rfl rfl fun _ _ => WrapTables.getWrappedKey_congr ?_
    rcases WrapTables.after_cases s.db (s.db.serveAttach p id team fault.isSome)
      with ⟨a, db', hok, hafter⟩ | ⟨-, hafter⟩
    · exact (congrArg _ hafter).trans (WrapTables.serveAttach_wrappedKeys hok)
    · exact congrArg _ hafter
  | putWrappedKey id user blob =>
    rcases WrapTables.after_cases s.db (s.db.servePut p id user blob fault.isSome)
      with ⟨a, db', hok, hafter⟩ | ⟨hno, hafter⟩
    · refine .stored id user blob (by simp [stores, hok, Except.isOk, Except.toBool]) rfl ?_
      intro id' user'
      unfold WrapTables.serve
      dsimp only
      rw [hafter, WrapTables.servePut_eq hok, WrapTables.getWrappedKey_put]
    · refine .same (by simp [stores, hno]) rfl fun _ _ => ?_
      unfold WrapTables.serve
      dsimp only
      rw [hafter]
  | deleteWrappedKey id user =>
    rcases WrapTables.after_cases s.db (s.db.serveDelete p id user fault.isSome)
      with ⟨a, db', hok, hafter⟩ | ⟨-, hafter⟩
    · refine .deleted id user rfl rfl fun id' user' => ?_
      unfold WrapTables.serve
      dsimp only
      rw [hafter, WrapTables.serveDelete_eq hok, WrapTables.getWrappedKey_delete]
    · refine .same rfl rfl fun _ _ => ?_
      unfold WrapTables.serve
      dsimp only
      rw [hafter]

/-! ## Every run -/

/-- **A removal deletes a wrap exactly when it finds the workspace attached.** -/
theorem removal_deletes_iff {team user id : Text} (hr : s.removes e = some (team, user)) :
    (s.db.serve e).getWrappedKey id user = none ↔
      s.db.teamOf id = some team ∨ s.db.getWrappedKey id user = none := by
  cases wrapsAfter_serve s e with
  | same hs hr' | stored id user blob hs hr' | deleted id user hs hr' => simp [hr'] at hr
  | removed team' user' hs hr' h =>
    cases hr.symm.trans hr'
    rw [h]
    by_cases hteam : s.db.teamOf id = some team <;> simp [hteam]

/-- A wrap that is gone stays gone until one is stored. -/
theorem getWrappedKey_serve_eq_none {id user : Text} (h : s.db.getWrappedKey id user = none)
    (hs : s.stores e ≠ some (id, user)) : (s.db.serve e).getWrappedKey id user = none := by
  cases wrapsAfter_serve s e with
  | same _ _ hget => rw [hget, h]
  | stored id' user' blob hs' _ hget =>
    rw [hget, if_neg, h]
    rintro ⟨rfl, rfl⟩
    exact hs hs'
  | deleted _ _ _ _ hget | removed _ _ _ _ hget =>
    rw [hget, h]
    exact ite_self none

/-- No wrap is left that a removal is to have ended. -/
def EndedGone (s : WrapSystem) : Prop := ∀ k ∈ s.ended, s.db.getWrappedKey k.1 k.2 = none

/-- A request whose removal finds the workspaces attached leaves none. -/
theorem EndedGone.step (h : s.EndedGone) (hc : s.FindsAttached e)
    (hstep : WrapSystem.step s e = some s') : s'.EndedGone := by
  cases hstep
  intro k hk
  dsimp only at hk
  split at hk
  · rename_i team user hr
    rcases List.mem_append.mp hk with hnew | hold
    · obtain ⟨k, -, rfl⟩ := List.mem_map.mp hnew
      exact (removal_deletes_iff hr).mpr (hc _ hr _ hnew)
    · refine getWrappedKey_serve_eq_none (h k hold) ?_
      -- A removal stores nothing.
      cases wrapsAfter_serve s e with
      | same hs hr' | stored _ _ _ hs hr' | deleted _ _ hs hr' => simp [hr'] at hr
      | removed _ _ hs => simp [hs]
  · obtain ⟨hold, hs⟩ := List.mem_filter.mp hk
    exact getWrappedKey_serve_eq_none (h k hold) (of_decide_eq_true hs)

end WrapSystem

open WrapSystem in
/-- **A removal ends the member's wraps.** In every run whose removals find the workspaces attached whose
wraps they are to end, the user is answered 404 on each of them until a new wrap is stored, whoever is
added and whatever is moved in between. -/
theorem wrap_ended (db : WrapTables) (events : List WrapEvent) (s : WrapSystem)
    (hrun : Lib.Run step FindsAttached (boot db) events s) : s.EndedRefused := by
  have hgone : s.EndedGone :=
    hrun.invariant (fun _ _ _ hi hc hs => EndedGone.step hi hc hs) (fun _ hk => nomatch hk)
  intro k hk
  exact WrapTables.answers404_iff.mpr (.inr (hgone k hk))

/-- Two users. -/
def wrapsStart : WrapTables where
  users := (∅ : Std.ExtTreeMap Text KeyBundle compare).insert ['a'] ⟨none, none, none⟩
    |>.insert ['b'] ⟨none, none, none⟩
  teams := ∅
  teamMembers := ∅
  workspaces := ∅
  wrappedKeys := ∅

/-- A request of the first user. -/
def byOwner (r : WrapRequest) : WrapEvent := ⟨.user ['a'], r, none⟩

/-- A workspace of a team, and a wrap for a member of the team. -/
def wrapsShared : List WrapEvent :=
  [.team (.create ['t'] ['n'] none 0), .team (.create ['u'] ['m'] none 0),
    .createWorkspace ['w'] ['p'] (some ['t']) true, .team (.add ['t'] ['b'] "reader".toList),
    .putWrappedKey ['w'] ['b'] (List.replicate 120 'f')].map byOwner

/-- The workspace is moved to another team and back, once around the removal and once before it. -/
def movedForRemoval : List WrapEvent := wrapsShared ++
  [.attachTeam ['w'] ['u'], .team (.remove ['t'] ['b']), .attachTeam ['w'] ['t'],
    .team (.add ['t'] ['b'] "reader".toList)].map byOwner

def movedBefore : List WrapEvent := wrapsShared ++
  [.attachTeam ['w'] ['u'], .attachTeam ['w'] ['t'], .team (.remove ['t'] ['b']),
    .team (.add ['t'] ['b'] "reader".toList)].map byOwner

/-- The first run takes place. -/
theorem movedForRemoval_runs :
    (Lib.replay WrapSystem.step (.boot wrapsStart) movedForRemoval).isSome = true := by
  decide +kernel

/-- In the second one the removal finds the workspace attached. -/
theorem movedBefore_runs :
    (Lib.replay (fun s e => if decide (WrapSystem.FindsAttached s e) then s.step e else none)
      (.boot wrapsStart) movedBefore).isSome = true := by
  decide +kernel

open WrapSystem in
/-- Moves before the removal do no harm. -/
theorem wrap_ended_movedBefore : ∃ s, Lib.Run step FindsAttached (boot wrapsStart) movedBefore s ∧
    (['w'], ['b']) ∈ s.ended ∧ s.EndedRefused := by
  have hok : ∀ s e, decide (FindsAttached s e) = true → FindsAttached s e :=
    fun _ _ => of_decide_eq_true
  have hrun := Lib.Run.of_replay_if hok (Option.some_get movedBefore_runs).symm
  exact ⟨_, hrun, by decide +kernel, wrap_ended _ _ _ hrun⟩

open WrapSystem in
/-- **A wrap outlives the removal** when the workspace is moved away before it and back after it: added
again, the user is answered the old one. -/
theorem wrap_outlives : ¬ ∀ (db : WrapTables) (events : List WrapEvent) (s : WrapSystem),
    Lib.Run step (fun _ _ => True) (boot db) events s → s.EndedRefused := by
  intro h
  have hrun := Lib.Run.of_replay (C := fun _ _ => True) (fun _ _ _ => trivial)
    (Option.some_get movedForRemoval_runs).symm
  obtain ⟨e, he, -⟩ := h _ _ _ hrun (['w'], ['b']) (by decide +kernel)
  have hok : ((Option.get _ movedForRemoval_runs).db.getMyWrappedKey (.user ['b']) ['w']).isOk =
      true := by decide +kernel
  rw [he] at hok
  cases hok

end Pear
