import Pear.Daemon
import Pear.Lib.Maps
import Pear.Lib.Runs

/-!
# The daemon

`peard` as a state machine (`bin/peard.rs`): a registry of workspaces, the loop of each one with the
control it shares with the registry (`loops.rs`), and the two files of `$PEAR_HOME` that outlive the
process. Requests hold the registry's lock from beginning to end, so each is one step; loops move
between them, and the process may be killed at any moment, also while it saves. The text of
`daemon.json` stands here as the JSON value it parses to. What a request can do to the
registrations is said once, in `Peard.perform_cases`.
-/

namespace Pear

/-! ## Loops -/

/-- What the registry and a loop share (`LoopControl`), for a worker of the daemon. -/
structure LoopControl where
  stop : Bool := false
  inCycle : Bool := false
  error : Option Text := none
  headSeq : UInt64 := 0
deriving DecidableEq

namespace LoopControl

/-- `record_error`: the first one wins. -/
def recordError (message : Text) (c : LoopControl) : LoopControl :=
  { c with error := c.error.or (some message) }

/-- `park_if_done` parks. -/
def done (c : LoopControl) : Bool := c.stop || c.error.isSome

end LoopControl

/-- Where the thread of a loop is. -/
inductive LoopPhase where
  /-- Between two cycles, before it looks at its control. -/
  | idle
  /-- Past the check, before `enter_cycle`. -/
  | checked
  | cycling
  /-- Parked by the check. -/
  | parked
  /-- Parked in the middle of the cycle that met a fatal error. -/
  | wedged
  /-- The loop returned. -/
  | ended
deriving DecidableEq

/-- The thread that runs a registration (`spawn_worker`). The token lives nowhere else. -/
structure LoopThread where
  registration : Registration
  token : Option Text
  /-- It runs the mirror's loop, from the beginning or since a 403. -/
  mirroring : Bool
  phase : LoopPhase := .idle
deriving DecidableEq

/-- A control, and the thread that was spawned with it, if any. -/
structure Loop where
  control : LoopControl := {}
  thread : Option LoopThread := none
deriving DecidableEq

/-- `spawn_worker` -/
def spawnWorker (registration : Registration) (token : Option Text) : LoopThread where
  registration := registration
  token := token
  mirroring := match registration with
    | .mirror .. => true
    | _ => false

/-- What a loop's thread does next. -/
inductive LoopTick where
  /-- It looks at its control: `park_if_done`, or the mirror's `stopped`. -/
  | check
  /-- `enter_cycle` -/
  | enter
  /-- The cycle ends, with a head or with an error that is retried. -/
  | finish (head : Option UInt64)
  /-- The cycle meets an error that retrying cannot help. -/
  | fatal (message : Text)
  /-- The relay answers 403, and the loop goes on as a mirror. -/
  | demote
  /-- The loop returns an error: it cannot start, or its directory or its watcher is gone. -/
  | fail (message : Text)
deriving DecidableEq

/-- One step of a loop's thread. -/
def Loop.step (l : Loop) (tick : LoopTick) : Option Loop :=
  match l.thread with
  | none => none
  | some t =>
    match t.phase, tick with
    | .idle, .check =>
      if t.mirroring then
        some { l with thread := some { t with phase := if l.control.stop then .ended else .checked } }
      else
        some { l with thread := some { t with phase := if l.control.done then .parked else .checked } }
    | .checked, .enter =>
      some ⟨{ l.control with inCycle := true }, some { t with phase := .cycling }⟩
    | .cycling, .finish head =>
      some ⟨{ l.control with inCycle := false, headSeq := head.getD l.control.headSeq },
        some { t with phase := .idle }⟩
    | .cycling, .fatal message =>
      if t.mirroring then
        some ⟨{ l.control.recordError message with inCycle := false },
          some { t with phase := .ended }⟩
      else if t.registration.needsToken then
        -- The cycle's guard is still alive when the thread parks.
        some ⟨l.control.recordError message, some { t with phase := .wedged }⟩
      else none
    | .cycling, .demote =>
      if t.registration.needsToken && !t.mirroring then
        some ⟨{ l.control with inCycle := false }, some { t with mirroring := true, phase := .idle }⟩
      else none
    | .idle, .fail message =>
      some ⟨l.control.recordError message, some { t with phase := .ended }⟩
    | _, _ => none

/-! ## Errors -/

/-- Why the daemon refuses a request or fails at it. -/
inductive DaemonError where
  | canonicalize (path : OsPath) (reason : Text)
  | noRelay
  | convergeWithoutToken
  | mirrorWithoutToken
  | noWorkspaceId
  | alreadyRegistered (path : OsPath)
  | notRegistered (path : OsPath)
  | save (reason : Text)
deriving DecidableEq

/-- The message of the response. -/
def DaemonError.message : DaemonError → Text
  | canonicalize path reason =>
    "canonicalize ".toList ++ path.lossy ++ ": ".toList ++ reason
  | noRelay => "a converge loop needs a relay URL".toList
  | convergeWithoutToken => "a converge loop needs a bearer token".toList
  | mirrorWithoutToken => "a mirror needs a bearer token".toList
  | noWorkspaceId => "a mirror needs a workspace id".toList
  | alreadyRegistered path => path.lossy ++ " is already registered; remove it first".toList
  | notRegistered path => path.lossy ++ " is not registered".toList
  | save reason => reason

/-! ## Files -/

/-- What a read of a file of `$PEAR_HOME` gives. -/
inductive StateFile where
  | absent
  /-- It cannot be read, or is no JSON. -/
  | corrupt
  | document (v : Json)

/-- `daemon.json` and the temporary next to it. -/
structure DaemonHome where
  state : StateFile := .absent
  tmp : StateFile := .absent

/-- `load_state`: `none` is an error, which ends the start of the daemon. -/
def DaemonHome.load (h : DaemonHome) : Option (List Registration) :=
  match h.state with
  | .absent => some []
  | .corrupt => none
  | .document v => (registrationsOfJson v).toOption

/-- How far `save_state` came. -/
inductive SavePoint where
  | untouched
  /-- The temporary holds a part of the document. -/
  | torn
  /-- The temporary is complete. -/
  | written
  | renamed
deriving DecidableEq

/-- The files when `save_state` has come that far. -/
def SavePoint.leaves (registrations : List Registration) (h : DaemonHome) : SavePoint → DaemonHome
  | .untouched => h
  | .torn => { h with tmp := .corrupt }
  | .written => { h with tmp := .document (stateJson registrations) }
  | .renamed => { state := .document (stateJson registrations), tmp := .absent }

/-- How a save ends. -/
inductive SaveEnd where
  | saved
  /-- The file cannot be created, is written in part, or its mode or name cannot be set. -/
  | failed (point : SavePoint) (reason : Text)
deriving DecidableEq

/-- `save_state` -/
def saveState (registrations : List Registration) (how : SaveEnd) (h : DaemonHome) :
    Except DaemonError Unit × DaemonHome :=
  match how with
  | .saved => (.ok (), SavePoint.renamed.leaves registrations h)
  | .failed .renamed reason => (.error (.save reason), SavePoint.written.leaves registrations h)
  | .failed point reason => (.error (.save reason), point.leaves registrations h)

/-! ## The registry -/

/-- A registered workspace, and its loop by number. -/
structure Worker where
  registration : Registration
  loop : Nat
deriving DecidableEq

/-- The process: the registry, every loop it started, and whether it shuts down. -/
structure Peard where
  workers : Std.ExtTreeMap Text Worker compare := ∅
  loops : List Loop := []
  closing : Bool := false

/-- What the operating system answers about the path of a request. -/
structure OsAnswers where
  /-- `canonicalize` -/
  canonical : Option OsPath
  /-- `std::path::absolute` -/
  absolute : Option OsPath
  /-- Why it is not canonicalized. -/
  reason : Text

/-- `path.canonicalize()?` -/
def OsAnswers.canonicalize (os : OsAnswers) (path : OsPath) : Except DaemonError OsPath :=
  match os.canonical with
  | some p => .ok p
  | none => .error (.canonicalize path os.reason)

/-- `key_of` -/
def OsAnswers.keyOf (os : OsAnswers) (path : OsPath) : Text :=
  ((os.canonical.or os.absolute).getD path).lossy

/-- `Registration::entry_info` -/
def Registration.entryInfo (r : Registration) (c : LoopControl) : EntryInfo where
  path := r.path
  role := r.role
  target := match r with
    | watch _ target => some target
    | _ => none
  relay := match r with
    | converge _ relay .. | mirror _ _ relay .. => some relay
    | watch .. => none
  workspace := match r with
    | converge _ _ workspace .. => workspace
    | mirror _ workspace .. => some workspace
    | watch .. => none
  state :=
    if c.error.isSome then "error".toList
    else if c.stop then "stopped".toList
    else "running".toList
  headSeq := c.headSeq
  error := c.error

namespace Peard

/-- The control of a worker's loop. -/
def control (s : Peard) (w : Worker) : LoopControl := ((s.loops[w.loop]?).getD {}).control

/-- `Worker::entry_info` -/
def entryInfo (s : Peard) (w : Worker) : EntryInfo := w.registration.entryInfo (s.control w)

/-- The registrations, as `persist` hands them to `save_state`. -/
def registrations (s : Peard) : List Registration := s.workers.toList.map (·.2.registration)

/-- Put a registration with its loop into the registry. -/
def insert (s : Peard) (registration : Registration) (loop : Loop) : Peard :=
  { s with
    workers := s.workers.insert registration.key ⟨registration, s.loops.length⟩
    loops := s.loops ++ [loop] }

/-- `start`: spawn the loop of a registration whose directory has none. -/
def start (s : Peard) (registration : Registration) (token : Option Text) :
    Except DaemonError (EntryInfo × Peard) :=
  if s.workers[registration.key]?.isSome then .error (.alreadyRegistered registration.path)
  else
    .ok (registration.entryInfo {},
      s.insert registration { thread := some (spawnWorker registration token) })

/-- `add_watch`, up to its `persist`. -/
def addWatch (s : Peard) (os : OsAnswers) (path target : OsPath) :
    Except DaemonError (EntryInfo × Peard) := do
  let path ← os.canonicalize path
  s.start (.watch path target) none

/-- `add_converge`, up to its `persist`. -/
def addConverge (s : Peard) (os : OsAnswers) (path : OsPath) (relay token : Text)
    (workspace device team : Option Text) (e2e : Bool) (name : Option Text)
    (tlsCaCert : Option OsPath) : Except DaemonError (EntryInfo × Peard) := do
  let path ← os.canonicalize path
  refuseIf (relay = []) .noRelay
  refuseIf (token = []) .convergeWithoutToken
  s.start (.converge path relay workspace device team e2e name tlsCaCert) (some token)

/-- `add_mirror`, up to its `persist`. -/
def addMirror (s : Peard) (os : OsAnswers) (path : OsPath) (workspace relay token : Text)
    (name : Option Text) (tlsCaCert : Option OsPath) : Except DaemonError (EntryInfo × Peard) := do
  let path ← os.canonicalize path
  refuseIf (workspace = []) .noWorkspaceId
  refuseIf (token = []) .mirrorWithoutToken
  s.start (.mirror path workspace relay name tlsCaCert) (some token)

/-- Ask a loop to stop (`control.stop()`). -/
def stopLoop (loops : List Loop) (i : Nat) : List Loop :=
  loops.modify i fun l => { l with control := { l.control with stop := true } }

/-- `remove`, up to its `persist`. -/
def remove (s : Peard) (os : OsAnswers) (path : OsPath) : Except DaemonError Peard :=
  match s.workers[os.keyOf path]? with
  | none => .error (.notRegistered path)
  | some worker =>
    .ok { s with workers := s.workers.erase (os.keyOf path), loops := stopLoop s.loops worker.loop }

/-- `entries` of the whole registry, or of the workspace at a key. -/
def entries (s : Peard) (key : Option Text) : Json :=
  let workers : List Worker := match key with
    | some key => s.workers[key]?.toList
    | none => s.workers.toList.map (·.2)
  workspacesJson (workers.map fun w => (s.entryInfo w).toJson)

/-- The answer to an addition (`entry.to_json()`), and the registry it made. -/
def added (res : EntryInfo × Peard) : Json × Option Peard := (res.1.toJson, some res.2)

/-- What a request comes to before anything is saved: the answer, and the registry when it changed. -/
def perform (s : Peard) (r : Request) (os : OsAnswers) : Except DaemonError (Json × Option Peard) :=
  match r with
  | .addWatch path target => (s.addWatch os path target).map added
  | .addConverge path relay token workspace device team e2e name tlsCaCert =>
    (s.addConverge os path relay token workspace device team e2e name tlsCaCert).map added
  | .addMirror path workspace relay token name tlsCaCert =>
    (s.addMirror os path workspace relay token name tlsCaCert).map added
  | .list => .ok (s.entries none, none)
  | .remove path =>
    (s.remove os path).map fun s' => (.obj [("removed".toList, .bool true)], some s')
  | .status path => .ok (s.entries (path.map os.keyOf), none)
  | .shutdown => .ok (.obj [], none)

/-- `dispatch`: a registry that changed is persisted before the answer. A save that fails leaves it
changed. -/
def dispatch (s : Peard) (r : Request) (os : OsAnswers) (how : SaveEnd) (home : DaemonHome) :
    Response × Peard × DaemonHome :=
  match s.perform r os with
  | .error e => (.err e.message, s, home)
  | .ok (answer, none) => (.ok answer, s, home)
  | .ok (answer, some s') =>
    match saveState s'.registrations how home with
    | (.ok _, home') => (.ok answer, s', home')
    | (.error e, home') => (.err e.message, s', home')

/-- `shutdown`, before it waits: every registered loop is asked to stop. -/
def shutdown (s : Peard) : Peard :=
  { s with loops := (s.workers.toList.map (·.2.loop)).foldl stopLoop s.loops
           closing := true }

/-- The message of a relay workspace that has no token to resume with. -/
def notResumed : Text :=
  "not resumed: relay workspaces need a token — restart peard with ".toList ++
    "PEAR_TOKEN set (tokens are held in memory only, never persisted)".toList

/-- The loop of a restored registration. -/
def resume (envToken : Option Text) (registration : Registration) : Loop :=
  if registration.needsToken then
    match envToken with
    | some token => { thread := some (spawnWorker registration (some token)) }
    | none => { control := LoopControl.recordError notResumed {} }
  else { thread := some (spawnWorker registration none) }

/-- One turn of the loop of `restore`. -/
def restoreOne (envToken : Option Text) (s : Peard) (registration : Registration) : Peard :=
  if s.workers[registration.key]?.isSome then s
  else s.insert registration (resume envToken registration)

/-- `restore` -/
def restore (envToken : Option Text) (registrations : List Registration) : Peard :=
  registrations.foldl (restoreOne envToken) {}

end Peard

/-- `env_token`: an empty variable is none. -/
def envToken (pearToken : Option Text) : Option Text := pearToken.filter (· ≠ [])

/-! ## The host -/

/-- The machine the daemon runs on: the process, when there is one, and its files. -/
structure PeardHost where
  peard : Option Peard := none
  home : DaemonHome := {}

/-- What happens on the host. -/
inductive HostEvent where
  /-- `peard` is started, with what `PEAR_TOKEN` holds. -/
  | start (pearToken : Option Text)
  /-- A connection: its line, which is JSON or not, what the system answers about its path, how a save
  ends, and whether the client takes the response. -/
  | serve (line : Except Text Json) (os : OsAnswers) (how : SaveEnd) (delivered : Bool)
  /-- The process is killed while it serves a connection. -/
  | dieServing (line : Except Text Json) (os : OsAnswers) (point : SavePoint)
  | die
  /-- A loop's thread takes a step. -/
  | tick (i : Nat) (t : LoopTick)
  /-- The process ends its shutdown, with every loop between two cycles or at the deadline. -/
  | exit (deadline : Bool)

/-- The `{e:#}` of a document error; `debug` is the `{:?}` of a string. -/
def DocumentError.message (debug : Text → Text) : DocumentError → Text
  | missing key => "missing or invalid field ".toList ++ debug key
  | notString key => "field ".toList ++ debug key ++ " must be a string or null".toList
  | notBool key => "field ".toList ++ debug key ++ " must be a boolean".toList
  | notUnsigned key => "field ".toList ++ debug key ++ " must be a non-negative integer".toList
  | unknown other => "unknown request type ".toList ++ debug other
  | untagged key => "request is missing its \"".toList ++ key ++ "\" field".toList
  | noWorkspaces => "result is missing its \"workspaces\" list".toList

section
variable (debug : Text → Text)

/-- The request of a line, or the message of the response to one that is none. -/
def parseLine (line : Except Text Json) : Except Text Request :=
  match line with
  | .error reason => .error ("bad request: invalid JSON: ".toList ++ reason)
  | .ok v =>
    match Request.ofJson v with
    | .ok r => .ok r
    | .error e => .error ("bad request: ".toList ++ e.message debug)

/-- `serve_conn`: the response, and what it leaves. A shutdown happens only after its response was
taken. -/
def Peard.serve (s : Peard) (line : Except Text Json) (os : OsAnswers) (how : SaveEnd)
    (delivered : Bool) (home : DaemonHome) : Response × Peard × DaemonHome :=
  match parseLine debug line with
  | .error message => (.err message, s, home)
  | .ok .shutdown => (.ok (.obj []), if delivered then s.shutdown else s, home)
  | .ok r => s.dispatch r os how home

/-- The files when the process is killed while it serves a connection. -/
def Peard.killed (s : Peard) (line : Except Text Json) (os : OsAnswers) (point : SavePoint)
    (home : DaemonHome) : DaemonHome :=
  match parseLine debug line with
  | .error _ => home
  | .ok r =>
    match s.perform r os with
    | .ok (_, some s') => point.leaves s'.registrations home
    | _ => home

/-- Every registered loop is between two cycles. -/
def Peard.drained (s : Peard) : Bool := s.workers.toList.all fun w => !(s.control w.2).inCycle

/-- One step of the host. -/
def PeardHost.step (h : PeardHost) (e : HostEvent) : Option PeardHost :=
  match h.peard, e with
  | none, .start pearToken =>
    match h.home.load with
    | some registrations => some { h with peard := some (Peard.restore (envToken pearToken) registrations) }
    -- A state that cannot be read ends the start.
    | none => some h
  | some s, .serve line os how delivered =>
    let res := s.serve debug line os how delivered h.home
    if s.closing then none else some ⟨some res.2.1, res.2.2⟩
  | some s, .dieServing line os point =>
    if s.closing then none else some ⟨none, s.killed debug line os point h.home⟩
  | some _, .die => some { h with peard := none }
  | some s, .tick i t =>
    match s.loops[i]? with
    | none => none
    | some l =>
      match l.step t with
      | none => none
      | some l' => some { h with peard := some { s with loops := s.loops.set i l' } }
  | some s, .exit deadline =>
    if s.closing ∧ (s.drained ∨ deadline) then some { h with peard := none } else none
  | _, _ => none

end

end Pear
