import Pear.Relay
import Pear.Lib.Maps
import Pear.Lib.Tx

/-!
# Team membership

`POST /teams`, `POST /teams/:id/members` and `DELETE /teams/:id/members/:user` down to their SQL
(`routes.rs`, `db.rs`). A role is stored as text, and member management is owner-gated without an
admin override, so a team without an owner could never be managed again. `TeamTables.Change` says all a
request can do to the tables, and `Change.hasOwner` that none of it takes a team's last owner.
-/

namespace Pear

/-! ## The tables -/

/-- The key columns of a row of `users`. -/
structure KeyBundle where
  pubkey : Option Text
  edPubkey : Option Text
  keySig : Option Text
deriving DecidableEq

/-- A row of `teams`. -/
structure TeamRow where
  name : Text
  createdAt : Int
  syncEnv : Bool
deriving DecidableEq

/-- A row of `team_members` joined with its user's key columns. -/
structure MemberRow where
  userName : Text
  role : Text
  bundle : KeyBundle
deriving DecidableEq

/-- The tables the requests read and write, by their primary keys. -/
structure TeamTables where
  users : Std.ExtTreeMap Text KeyBundle compare
  teams : Std.ExtTreeMap Text TeamRow compare
  /-- The role of a user in a team. -/
  teamMembers : Std.ExtTreeMap Text (Std.ExtTreeMap Text Text compare) compare
  /-- The team a workspace is attached to. -/
  workspaces : Std.ExtTreeMap Text (Option Text) compare
  /-- The blob of a workspace for a user. -/
  wrappedKeys : Std.ExtTreeMap Text (Std.ExtTreeMap Text Text compare) compare

/-- The role names of `Role::parse`. -/
def Role.parse (role : Text) : Option Role :=
  if role = "reader".toList then some .reader
  else if role = "writer".toList then some .writer
  else if role = "owner".toList then some .owner
  else none

/-- `Role::as_str`. -/
def Role.asStr : Role → Text
  | .reader => "reader".toList
  | .writer => "writer".toList
  | .owner => "owner".toList

namespace TeamTables

/-- The rows of `team_members` of a team. -/
def membersOf (db : TeamTables) (team : Text) : Std.ExtTreeMap Text Text compare :=
  db.teamMembers[team]?.getD ∅

/-- `member_role` -/
def memberRole (db : TeamTables) (team user : Text) : Option Text := (db.membersOf team)[user]?

/-- `SELECT COUNT(*) … AND role = 'owner'` (`owner_count`). -/
def ownerCount (db : TeamTables) (team : Text) : Nat :=
  ((db.membersOf team).toList.filter (·.2 = Role.owner.asStr)).length

/-- `list_members`: a member whose user row is missing has no keys. -/
def listMembers (db : TeamTables) (team : Text) : List MemberRow :=
  (db.membersOf team).toList.map fun (user, role) =>
    { userName := user, role, bundle := db.users[user]?.getD ⟨none, none, none⟩ }

/-- Is the id or the name of a new team taken? -/
def teamTaken (db : TeamTables) (id name : Text) : Bool :=
  id ∈ db.teams || db.teams.toList.any (·.2.name = name)

/-- `INSERT OR IGNORE INTO teams` -/
def createTeam (id : Text) (row : TeamRow) (db : TeamTables) : TeamTables :=
  if db.teamTaken id row.name then db else { db with teams := db.teams.insert id row }

/-- `INSERT INTO team_members … ON CONFLICT … DO UPDATE SET role` (`add_member`). -/
def addMember (team user role : Text) (db : TeamTables) : TeamTables :=
  { db with teamMembers := db.teamMembers.insert team ((db.membersOf team).insert user role) }

/-- `DELETE FROM team_members` -/
def deleteMember (team user : Text) (db : TeamTables) : TeamTables :=
  { db with teamMembers := db.teamMembers.insert team ((db.membersOf team).erase user) }

/-- `DELETE FROM wrapped_keys` for the workspaces attached to the team. -/
def deleteWrappedKeys (team user : Text) (db : TeamTables) : TeamTables :=
  { db with wrappedKeys := db.wrappedKeys.map fun id rows =>
      if db.workspaces[id]? = some (some team) then rows.erase user else rows }

/-- The statements of `create_team_with_owner`. -/
def createTeamWithOwner (db : TeamTables) (id : Text) (row : TeamRow) (owner : Text) :
    List (TeamTables → Option TeamTables) :=
  (some ∘ createTeam id row) ::
    if db.teamTaken id row.name then [] else [some ∘ addMember id owner Role.owner.asStr]

/-- The statements of `remove_member`. -/
def removeMember (db : TeamTables) (team user : Text) : List (TeamTables → Option TeamTables) :=
  (some ∘ deleteMember team user) ::
    if (db.memberRole team user).isSome then [some ∘ deleteWrappedKeys team user] else []

end TeamTables

/-! ## The requests -/

/-- Why a request is refused. The constructors carry the values the messages quote. -/
inductive TeamError where
  /-- "only a user can create a team (…)" -/
  | adminCreatesTeam
  /-- "team name {name} must be 1-128 chars, …" -/
  | badTeamName (name : Text)
  /-- "team {name} already exists" -/
  | teamExists (name : Text)
  /-- "role {role} is not owner, writer, or reader" -/
  | badRole (role : Text)
  /-- "team {id} does not exist" -/
  | noTeam (id : Text)
  /-- "team member management is team-owner only" -/
  | ownerOnly
  /-- "user {user} does not exist" -/
  | noUser (user : Text)
  /-- "you are the last owner; promote another member first" -/
  | youAreLastOwner
  /-- "{user} is the last owner of this team; promote another member first" -/
  | lastOwner (user : Text)
  /-- "internal server error" -/
  | internal
deriving DecidableEq

/-- The call of a request that fails in the database. -/
inductive TeamFault where
  /-- A query before the first write. -/
  | query
  /-- The statement of `add_member`. -/
  | statement
  | tx (f : Lib.Conn.Fault)
  /-- The query after `add_member`. -/
  | answer
deriving DecidableEq

/-- The fault of a request's transaction. -/
def TeamFault.tx? : Option TeamFault → Option Lib.Conn.Fault
  | some (.tx f) => some f
  | _ => none

namespace TeamTables

/-- The caller's role in a team; the admin holds none. -/
def callerRole (db : TeamTables) (team : Text) : Principal → Option Text
  | .admin => none
  | .user name => db.memberRole team name

/-- The checks of `team_add_member`. -/
def checkAddMember (db : TeamTables) (p : Principal) (team user role : Text) (fault : Bool) :
    Except TeamError Role := do
  let some r := Role.parse role | throw (.badRole role)
  refuseIf fault .internal
  refuseIf (team ∉ db.teams) (.noTeam team)
  refuseIf (db.callerRole team p ≠ some Role.owner.asStr) .ownerOnly
  refuseIf (user ∉ db.users) (.noUser user)
  -- The last owner may not demote themselves.
  refuseIf (p = .user user ∧ r.asStr ≠ Role.owner.asStr ∧
    ((db.listMembers team).filter (·.role = Role.owner.asStr)).length ≤ 1) .youAreLastOwner
  return r

/-- The checks of `team_remove_member`. -/
def checkRemoveMember (db : TeamTables) (p : Principal) (team user : Text) (fault : Bool) :
    Except TeamError Unit := do
  refuseIf fault .internal
  refuseIf (team ∉ db.teams) (.noTeam team)
  let selfLeave := p = .user user ∧ (db.callerRole team p).isSome
  refuseIf (db.callerRole team p ≠ some Role.owner.asStr ∧ ¬ selfLeave) .ownerOnly
  refuseIf (db.memberRole team user = some Role.owner.asStr ∧ db.ownerCount team ≤ 1)
    (.lastOwner user)

end TeamTables

/-- The body of a successful answer. -/
inductive TeamAnswer where
  | team (id : Text) (name : Text) (syncEnv : Bool)
  | member (user role : Text) (bundle : Option KeyBundle)
  | noContent
deriving DecidableEq

/-- The relay's connection, as far as teams go. -/
abbrev TeamServer := Lib.Conn TeamTables

namespace TeamServer

/-- `create_team`. The id is the relay's own choice, and an absent policy is `true`. -/
def createTeam (c : TeamServer) (p : Principal) (id name : Text) (syncEnv : Option Bool) (now : Int)
    (fault : Option TeamFault) : Except TeamError TeamAnswer × TeamServer :=
  match p with
  | .admin => (.error .adminCreatesTeam, c)
  | .user user =>
    if Relay.validName name = false then (.error (.badTeamName name), c)
    else
      let row : TeamRow := { name, createdAt := now, syncEnv := syncEnv.getD true }
      match c.withTx (c.disk.createTeamWithOwner id row user) (TeamFault.tx? fault) with
      | (false, c) => (.error .internal, c)
      | (true, c') =>
        if c.disk.teamTaken id name then (.error (.teamExists name), c')
        else (.ok (.team id name row.syncEnv), c')

/-- `team_add_member`. Its one statement commits by itself. -/
def addMember (c : TeamServer) (p : Principal) (team user role : Text) (fault : Option TeamFault) :
    Except TeamError TeamAnswer × TeamServer :=
  match c.disk.checkAddMember p team user role (fault = some .query) with
  | .error e => (.error e, c)
  | .ok r =>
    if fault = some .statement then (.error .internal, c)
    else
      let c' := { c with disk := c.disk.addMember team user r.asStr }
      if fault = some .answer then (.error .internal, c')
      else (.ok (.member user r.asStr c.disk.users[user]?), c')

/-- `team_remove_member`. -/
def removeMember (c : TeamServer) (p : Principal) (team user : Text) (fault : Option TeamFault) :
    Except TeamError TeamAnswer × TeamServer :=
  match c.disk.checkRemoveMember p team user (fault = some .query) with
  | .error e => (.error e, c)
  | .ok () =>
    match c.withTx (c.disk.removeMember team user) (TeamFault.tx? fault) with
    | (false, c) => (.error .internal, c)
    | (true, c) => (.ok .noContent, c)

end TeamServer

/-- A request about a team. -/
inductive TeamRequest where
  | create (id name : Text) (syncEnv : Option Bool) (now : Int)
  | add (team user role : Text)
  | remove (team user : Text)

/-- A request with who asks and the call of it that fails. -/
structure TeamEvent where
  principal : Principal
  request : TeamRequest
  fault : Option TeamFault

/-- The connection after a request. The database lock makes each request one step. -/
def TeamServer.serve (c : TeamServer) (e : TeamEvent) : TeamServer :=
  match e.request with
  | .create id name syncEnv now => (c.createTeam e.principal id name syncEnv now e.fault).2
  | .add team user role => (c.addMember e.principal team user role e.fault).2
  | .remove team user => (c.removeMember e.principal team user e.fault).2

/-! ## Owners -/

namespace TeamTables

variable {db db' : TeamTables} {team team' user user' role : Text}

/-- A team has an owner. -/
def HasOwner (db : TeamTables) (team : Text) : Prop :=
  ∃ user, db.memberRole team user = some Role.owner.asStr

/-- The members after a row of a team was set. -/
theorem membersOf_insert {m : Std.ExtTreeMap Text Text compare} :
    membersOf { db with teamMembers := db.teamMembers.insert team m } team' =
      if team = team' then m else db.membersOf team' := by
  unfold membersOf
  rw [Lib.getElem?_insert_eq]
  split <;> rfl

/-- The roles after a member was added. -/
theorem memberRole_addMember :
    (db.addMember team user role).memberRole team' user' =
      if team = team' ∧ user = user' then some role else db.memberRole team' user' := by
  unfold memberRole addMember
  rw [membersOf_insert]
  by_cases ht : team = team'
  · subst ht
    simp [Lib.getElem?_insert_eq]
  · simp [ht]

/-- The roles after a member was deleted. -/
theorem memberRole_deleteMember :
    (db.deleteMember team user).memberRole team' user' =
      if team = team' ∧ user = user' then none else db.memberRole team' user' := by
  unfold memberRole deleteMember
  rw [membersOf_insert]
  by_cases ht : team = team'
  · subst ht
    simp [Lib.getElem?_erase_eq]
  · simp [ht]

/-- The two guards count the same rows. -/
theorem length_listMembers :
    ((db.listMembers team).filter (·.role = Role.owner.asStr)).length = db.ownerCount team := by
  simp [listMembers, ownerCount, List.filter_map, Function.comp_def]

/-- **A second owner is someone else.** The rows have different users, so two owners are two. -/
theorem other_owner (h : 1 < db.ownerCount team) (user : Text) :
    ∃ other ≠ user, db.memberRole team other = some Role.owner.asStr := by
  by_contra hno
  push Not at hno
  let owners := ((db.membersOf team).toList.filter (·.2 = Role.owner.asStr)).map (·.1)
  have hnodup : owners.Nodup := by
    have hkeys := Lib.nodup_keys (db.membersOf team)
    rw [← Std.ExtTreeMap.map_fst_toList_eq_keys] at hkeys
    exact hkeys.sublist (List.filter_sublist.map _)
  have hall : ∀ other ∈ owners, other = user := by
    intro other hmem
    obtain ⟨⟨u, r⟩, hrow, rfl⟩ := List.mem_map.mp hmem
    obtain ⟨hrow, hr⟩ := List.mem_filter.mp hrow
    by_contra hne
    refine hno u hne ?_
    rw [memberRole, Std.ExtTreeMap.mem_toList_iff_getElem?_eq_some.mp hrow]
    exact congrArg some (of_decide_eq_true hr)
  have hlen : owners.length ≤ 1 := by
    rw [List.eq_replicate_of_mem hall] at hnodup ⊢
    exact (List.nodup_replicate.mp hnodup).trans_eq' (by simp)
  rw [List.length_map] at hlen
  exact absurd h (by unfold ownerCount; omega)

/-- All a request does to the tables. -/
inductive Change : TeamTables → TeamTables → Prop
  | same (db : TeamTables) : Change db db
  | created (db : TeamTables) (id : Text) (row : TeamRow) (owner : Text) (hid : id ∉ db.teams) :
    Change db ({ db with teams := db.teams.insert id row }.addMember id owner Role.owner.asStr)
  /-- An owner set a role, and when it was their own they stay owner or there is another one. -/
  | added (db : TeamTables) (team caller user role : Text)
    (hcaller : db.memberRole team caller = some Role.owner.asStr)
    (hself : caller = user → role = Role.owner.asStr ∨ 1 < db.ownerCount team) :
    Change db (db.addMember team user role)
  /-- Someone was removed who is no owner, or not the only one. -/
  | removed (db : TeamTables) (team user : Text)
    (wrapped : Std.ExtTreeMap Text (Std.ExtTreeMap Text Text compare) compare)
    (hguard : db.memberRole team user = some Role.owner.asStr → 1 < db.ownerCount team) :
    Change db { db.deleteMember team user with wrappedKeys := wrapped }

/-- **No change takes a team's last owner.** -/
theorem Change.hasOwner (h : Change db db') (hown : db.HasOwner team) : db'.HasOwner team := by
  obtain ⟨owner, howner⟩ := hown
  cases h with
  | same => exact ⟨owner, howner⟩
  | created id row first hid =>
    by_cases hfirst : id = team ∧ first = owner
    · exact ⟨owner, by rw [memberRole_addMember, if_pos hfirst]⟩
    · exact ⟨owner, by rw [memberRole_addMember, if_neg hfirst]; exact howner⟩
  | added team' caller user role hcaller hself =>
    by_cases ht : team' = team
    · subst ht
      -- The caller stays an owner unless they demoted themselves.
      by_cases hu : caller = user
      · rcases hself hu with hrole | hmore
        · exact ⟨user, by rw [memberRole_addMember, if_pos ⟨rfl, rfl⟩, hrole]⟩
        · obtain ⟨other, hne, hother⟩ := other_owner hmore user
          refine ⟨other, ?_⟩
          rw [memberRole_addMember, if_neg fun hc => hne hc.2.symm, hother]
      · refine ⟨caller, ?_⟩
        rw [memberRole_addMember, if_neg fun hc => hu hc.2.symm, hcaller]
    · exact ⟨owner, by rw [memberRole_addMember, if_neg fun hc => ht hc.1, howner]⟩
  | removed team' user wrapped hguard =>
    have hrole : ∀ u, (memberRole { db.deleteMember team' user with wrappedKeys := wrapped } team u)
        = (db.deleteMember team' user).memberRole team u := fun _ => rfl
    by_cases ht : team' = team ∧ user = owner
    · obtain ⟨rfl, rfl⟩ := ht
      obtain ⟨other, hne, hother⟩ := other_owner (hguard howner) user
      refine ⟨other, ?_⟩
      rw [hrole, memberRole_deleteMember, if_neg fun hc => hne hc.2.symm, hother]
    · exact ⟨owner, by rw [hrole, memberRole_deleteMember, if_neg ht, howner]⟩

/-- A team that a change adds has an owner. -/
theorem Change.new_team (h : Change db db') (hin : team ∈ db'.teams) :
    team ∈ db.teams ∨ db'.HasOwner team := by
  cases h with
  | same | added | removed => exact .inl hin
  | created id row owner hid =>
    by_cases ht : id = team
    · subst ht
      exact .inr ⟨owner, by rw [memberRole_addMember, if_pos ⟨rfl, rfl⟩]⟩
    · refine .inl ?_
      have hin : team ∈ db.teams.insert id row := hin
      rw [Std.ExtTreeMap.mem_insert, Std.LawfulEqCmp.compare_eq_iff_eq] at hin
      exact hin.resolve_left ht

end TeamTables

/-! ## What a request does -/

namespace TeamServer

variable {db : TeamTables} {p : Principal} {fault : Option TeamFault}

open TeamTables

/-- A connection at rest whose tables changed as a request changes them. -/
def After (db : TeamTables) (c : TeamServer) : Prop := ∃ db', c = ⟨db', none⟩ ∧ Change db db'

/-- **A team comes with its owner, or not at all**, whatever fails. -/
theorem after_createTeam (id name : Text) (syncEnv : Option Bool) (now : Int) :
    After db (createTeam ⟨db, none⟩ p id name syncEnv now fault).2 := by
  unfold createTeam
  cases p with
  | admin => exact ⟨db, rfl, .same db⟩
  | user user =>
    dsimp only
    split
    · exact ⟨db, rfl, .same db⟩
    generalize ({ name, createdAt := now, syncEnv := syncEnv.getD true } : TeamRow) = row
    rcases Lib.Conn.withTx_cases (db.createTeamWithOwner id row user) (TeamFault.tx? fault) db with
      hfail | ⟨db', hall, hok⟩
    · rw [hfail]
      exact ⟨db, rfl, .same db⟩
    · rw [hok]
      refine ⟨db', by dsimp only; split <;> rfl, ?_⟩
      unfold createTeamWithOwner at hall
      by_cases htaken : db.teamTaken id row.name
      · rw [if_pos htaken] at hall
        have : db.createTeam id row = db' := by simpa using hall
        rw [← this, TeamTables.createTeam, if_pos htaken]
        exact .same db
      · rw [if_neg htaken] at hall
        have : (db.createTeam id row).addMember id user Role.owner.asStr = db' := by
          simpa using hall
        rw [← this, TeamTables.createTeam, if_neg htaken]
        have hid : id ∉ db.teams := by
          intro hin
          simp [teamTaken, hin] at htaken
        exact .created db id row user hid

/-- A role is set by an owner, and the last one keeps theirs. -/
theorem after_addMember (team user role : Text) :
    After db (addMember ⟨db, none⟩ p team user role fault).2 := by
  unfold addMember
  dsimp only
  cases hc : db.checkAddMember p team user role (fault = some .query) with
  | error e => exact ⟨db, rfl, .same db⟩
  | ok r =>
    dsimp only
    split
    · exact ⟨db, rfl, .same db⟩
    refine ⟨db.addMember team user r.asStr, by split <;> rfl, ?_⟩
    unfold checkAddMember at hc
    cases hr : Role.parse role with
    | none => simp [hr, throw, throwThe, MonadExceptOf.throw] at hc
    | some r' =>
      simp only [hr, refuseIf_bind_eq_ok_iff] at hc
      obtain ⟨-, -, hcaller, -, hself, hret⟩ := hc
      cases hret
      cases p with
      | admin => simp [callerRole] at hcaller
      | user caller =>
        refine .added db team caller user r.asStr (by simpa [callerRole] using hcaller) ?_
        rintro rfl
        rw [length_listMembers] at hself
        simpa [or_iff_not_imp_left] using hself

/-- Nobody removes the last owner. -/
theorem after_removeMember (team user : Text) :
    After db (removeMember ⟨db, none⟩ p team user fault).2 := by
  unfold removeMember
  dsimp only
  cases hc : db.checkRemoveMember p team user (fault = some .query) with
  | error e => exact ⟨db, rfl, .same db⟩
  | ok _ =>
    dsimp only
    simp only [checkRemoveMember, refuseIf_bind_eq_ok_iff] at hc
    obtain ⟨-, -, -, hguard⟩ := hc
    rcases Lib.Conn.withTx_cases (db.removeMember team user) (TeamFault.tx? fault) db with
      hfail | ⟨db', hall, hok⟩
    · rw [hfail]
      exact ⟨db, rfl, .same db⟩
    · rw [hok]
      refine ⟨db', rfl, ?_⟩
      have hguard : db.memberRole team user = some Role.owner.asStr → 1 < db.ownerCount team := by
        simpa using refuseIf_eq_ok_iff.mp hguard
      unfold TeamTables.removeMember at hall
      split at hall
      · have : (db.deleteMember team user).deleteWrappedKeys team user = db' := by simpa using hall
        rw [← this]
        exact .removed db team user _ hguard
      · have : db.deleteMember team user = db' := by simpa using hall
        rw [← this]
        exact .removed db team user db.wrappedKeys hguard

/-- **What a request does.** -/
theorem after_serve (db : TeamTables) (e : TeamEvent) : After db (serve ⟨db, none⟩ e) := by
  unfold serve
  split
  · exact after_createTeam _ _ _ _
  · exact after_addMember _ _ _
  · exact after_removeMember _ _

/-! ## Every run -/

/-- What a run of requests leaves: an owner stays in place, and a team without one was there. -/
theorem run_owners (db₀ : TeamTables) : ∀ events : List TeamEvent,
    ∃ db, events.foldl serve ⟨db₀, none⟩ = ⟨db, none⟩ ∧
      ∀ team ∈ db.teams, db.HasOwner team ∨ team ∈ db₀.teams ∧ ¬ db₀.HasOwner team := by
  intro events
  induction events using List.reverseRecOn with
  | nil => exact ⟨db₀, rfl, fun team hin => (Classical.em _).imp_right fun hno => ⟨hin, hno⟩⟩
  | append_singleton events e ih =>
    obtain ⟨db, hrun, howners⟩ := ih
    obtain ⟨db', hserve, hchange⟩ := after_serve db e
    refine ⟨db', by rw [List.foldl_append, hrun]; exact hserve, fun team hin => ?_⟩
    rcases hchange.new_team hin with hold | hnew
    · exact (howners team hold).imp_left hchange.hasOwner
    · exact .inl hnew

/-- **A team keeps an owner.** After any requests by anyone, those that are refused and those whose
transaction fails included, every team has an owner, but for one that had none at the start. -/
theorem team_keeps_owner (db₀ : TeamTables) (events : List TeamEvent) (team : Text)
    (hin : team ∈ (events.foldl serve ⟨db₀, none⟩).disk.teams) :
    (events.foldl serve ⟨db₀, none⟩).disk.HasOwner team ∨
      team ∈ db₀.teams ∧ ¬ db₀.HasOwner team := by
  obtain ⟨db, hrun, howners⟩ := run_owners db₀ events
  rw [hrun] at hin ⊢
  exact howners team hin

/-- Tables with two users and no team. -/
def twoUsers : TeamTables where
  users := (∅ : Std.ExtTreeMap Text KeyBundle compare).insert ['a'] ⟨none, none, none⟩
    |>.insert ['b'] ⟨none, none, none⟩
  teams := ∅
  teamMembers := ∅
  workspaces := ∅
  wrappedKeys := ∅

/-- A team is made, its owner promotes a second one, and demotes and removes themselves. -/
def handOver : List TeamEvent :=
  [⟨.user ['a'], .create ['t'] ['n'] none 0, none⟩,
    ⟨.user ['a'], .add ['t'] ['b'] "owner".toList, none⟩,
    ⟨.user ['a'], .add ['t'] ['a'] "reader".toList, none⟩,
    ⟨.user ['a'], .remove ['t'] ['a'], none⟩,
    ⟨.user ['b'], .remove ['t'] ['b'], none⟩]

/-- The second owner cannot leave. -/
theorem team_keeps_owner_handOver :
    (handOver.foldl serve ⟨twoUsers, none⟩).disk.HasOwner ['t'] ∨
      ['t'] ∈ twoUsers.teams ∧ ¬ twoUsers.HasOwner ['t'] :=
  team_keeps_owner twoUsers handOver ['t'] (by decide +kernel)

/-- A team that has no owner at the start has none when nothing happens. -/
theorem ownerless_team_stays : ¬ ∀ (db₀ : TeamTables) (events : List TeamEvent) (team : Text),
    team ∈ (events.foldl serve ⟨db₀, none⟩).disk.teams →
      (events.foldl serve ⟨db₀, none⟩).disk.HasOwner team := by
  intro h
  let db₀ : TeamTables := { twoUsers with
    teams := (∅ : Std.ExtTreeMap Text TeamRow compare).insert ['t'] ⟨['n'], 0, true⟩ }
  obtain ⟨user, howner⟩ := h db₀ [] ['t'] (by decide +kernel)
  have hnone : db₀.memberRole ['t'] user = none := by
    simp [db₀, memberRole, membersOf, twoUsers]
  rw [List.foldl_nil, hnone] at howner
  cases howner

end TeamServer

end Pear
