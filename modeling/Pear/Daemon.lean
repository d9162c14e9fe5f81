import Pear.Relay.Envelope

/-!
# The daemon's documents

What `pear` and `peard` exchange and what `peard` keeps on disk (`daemon.rs`): requests, responses, the
status entries in them, and the registrations of `daemon.json`, each with the two directions of its
JSON. A path is not always Unicode, and JSON holds it as `to_string_lossy` gives it. Every document
reads back as what was written with its paths so converted (`Request.ofJson_toJson`,
`Registration.ofJson_toJson`, `Response.intoResult_ok`, `EntryInfo.ofJson_toJson`), and what is accepted
from arbitrary JSON has Unicode paths only, so it is written and read back as it is
(`Request.recorded_of_ofJson`).
-/

namespace Pear

/-! ## Paths -/

/-- A path of the operating system: its characters, and the byte sequences in it that are not UTF-8. -/
abbrev OsPath := List (Char ⊕ Bytes)

/-- `PathBuf::from` of a string. -/
def OsPath.ofText (s : Text) : OsPath := s.map .inl

/-- `to_string_lossy`: each sequence that is not UTF-8 becomes the replacement character. -/
def OsPath.lossy (p : OsPath) : Text := p.map (Sum.elim id fun _ => '\uFFFD')

/-- A path after a round trip through a string. -/
def OsPath.recorded (p : OsPath) : OsPath := .ofText p.lossy

@[simp] theorem OsPath.lossy_ofText (s : Text) : (OsPath.ofText s).lossy = s := by
  simp [OsPath.ofText, OsPath.lossy]

@[simp] theorem OsPath.lossy_recorded (p : OsPath) : p.recorded.lossy = p.lossy :=
  OsPath.lossy_ofText _

@[simp] theorem OsPath.recorded_ofText (s : Text) :
    (OsPath.ofText s).recorded = OsPath.ofText s := by
  rw [OsPath.recorded, OsPath.lossy_ofText]

/-! ## Fields -/

/-- Why a document is not accepted. -/
inductive DocumentError where
  /-- "missing or invalid field {key:?}" -/
  | missing (key : Text)
  /-- "field {key:?} must be a string or null" -/
  | notString (key : Text)
  /-- "field {key:?} must be a boolean" -/
  | notBool (key : Text)
  /-- "field {key:?} must be a non-negative integer" -/
  | notUnsigned (key : Text)
  /-- "unknown request type {other:?}", "unknown registration role {other:?}" -/
  | unknown (other : Text)
  /-- "request is missing its \"type\" field", "registration is missing its \"role\" field",
  "response is missing its \"ok\" field" -/
  | untagged (key : Text)
  /-- "result is missing its \"workspaces\" list", "{path}: missing \"workspaces\" list" -/
  | noWorkspaces
deriving DecidableEq

/-- The field of an object (`Value::get`); of a name given twice the last one counts. -/
def Json.get (key : Text) : Json → Option Json
  | .obj fields => (fields.reverse.find? (·.1 = key)).map (·.2)
  | _ => none

/-- `Value::as_bool` -/
def Json.asBool : Json → Option Bool
  | .bool b => some b
  | _ => none

/-- `Value::as_array` -/
def Json.asArray : Json → Option (List Json)
  | .arr values => some values
  | _ => none

/-- `as_u64` of a number's literal: digits only, and below 2^64. -/
def asU64 (literal : Text) : Option UInt64 :=
  if literal ≠ [] ∧ literal.all Char.isDigit ∧ Nat.ofDigitChars 10 literal 0 < 2 ^ 64 then
    some (UInt64.ofNat (Nat.ofDigitChars 10 literal 0))
  else none

/-- `json!` of an optional string. -/
def Json.optional : Option Text → Json
  | some s => .str s
  | none => .null

/-- `json!` of a `u64`. -/
def Json.unsigned (n : UInt64) : Json := .number (Nat.toDigits 10 n.toNat)

section
variable (v : Json) (key : Text)

/-- `opt_str` -/
def optStr : Except DocumentError (Option Text) :=
  match v.get key with
  | none | some .null => .ok none
  | some (.str s) => .ok (some s)
  | _ => .error (.notString key)

/-- `req_str` -/
def reqStr : Except DocumentError Text := do
  match ← optStr v key with
  | some s => .ok s
  | none => .error (.missing key)

/-- `opt_bool` -/
def optBool : Except DocumentError Bool :=
  match v.get key with
  | none | some .null => .ok false
  | some (.bool b) => .ok b
  | _ => .error (.notBool key)

/-- `opt_u64` -/
def optU64 : Except DocumentError UInt64 :=
  match v.get key with
  | none | some .null => .ok 0
  | some (.number literal) =>
    match asU64 literal with
    | some n => .ok n
    | none => .error (.notUnsigned key)
  | _ => .error (.notUnsigned key)

/-- A required path (`PathBuf::from(req_str(…)?)`). -/
def reqPath : Except DocumentError OsPath := (reqStr v key).map OsPath.ofText

/-- An optional path. -/
def optPath : Except DocumentError (Option OsPath) :=
  (optStr v key).map (Option.map OsPath.ofText)

end

/-! ## Requests -/

/-- What a client asks for (`Request`). -/
inductive Request where
  | addWatch (path target : OsPath)
  | addConverge (path : OsPath) (relay token : Text) (workspace device team : Option Text)
      (e2e : Bool) (name : Option Text) (tlsCaCert : Option OsPath)
  | addMirror (path : OsPath) (workspace relay token : Text) (name : Option Text)
      (tlsCaCert : Option OsPath)
  | list
  | remove (path : OsPath)
  | status (path : Option OsPath)
  | shutdown
deriving DecidableEq

namespace Request

/-- `Request::to_json` -/
def toJson : Request → Json
  | addWatch path target => .obj [
      ("type".toList, .str "add_watch".toList),
      ("path".toList, .str path.lossy),
      ("target".toList, .str target.lossy)]
  | addConverge path relay token workspace device team e2e name tlsCaCert => .obj [
      ("type".toList, .str "add_converge".toList),
      ("path".toList, .str path.lossy),
      ("relay".toList, .str relay),
      ("token".toList, .str token),
      ("workspace".toList, .optional workspace),
      ("device".toList, .optional device),
      ("team".toList, .optional team),
      ("e2e".toList, .bool e2e),
      ("name".toList, .optional name),
      ("tls_ca_cert".toList, .optional (tlsCaCert.map OsPath.lossy))]
  | addMirror path workspace relay token name tlsCaCert => .obj [
      ("type".toList, .str "add_mirror".toList),
      ("path".toList, .str path.lossy),
      ("workspace".toList, .str workspace),
      ("relay".toList, .str relay),
      ("token".toList, .str token),
      ("name".toList, .optional name),
      ("tls_ca_cert".toList, .optional (tlsCaCert.map OsPath.lossy))]
  | list => .obj [("type".toList, .str "list".toList)]
  | remove path => .obj [
      ("type".toList, .str "remove".toList),
      ("path".toList, .str path.lossy)]
  | status path => .obj [
      ("type".toList, .str "status".toList),
      ("path".toList, .optional (path.map OsPath.lossy))]
  | shutdown => .obj [("type".toList, .str "shutdown".toList)]

/-- `Request::from_json` -/
def ofJson (v : Json) : Except DocumentError Request := do
  match ← optStr v "type".toList with
  | none => .error (.untagged "type".toList)
  | some tag =>
    if tag = "add_watch".toList then
      return addWatch (← reqPath v "path".toList) (← reqPath v "target".toList)
    else if tag = "add_converge".toList then
      return addConverge (← reqPath v "path".toList) (← reqStr v "relay".toList)
        (← reqStr v "token".toList) (← optStr v "workspace".toList) (← optStr v "device".toList)
        (← optStr v "team".toList) (← optBool v "e2e".toList) (← optStr v "name".toList)
        (← optPath v "tls_ca_cert".toList)
    else if tag = "add_mirror".toList then
      return addMirror (← reqPath v "path".toList) (← reqStr v "workspace".toList)
        (← reqStr v "relay".toList) (← reqStr v "token".toList) (← optStr v "name".toList)
        (← optPath v "tls_ca_cert".toList)
    else if tag = "list".toList then return list
    else if tag = "remove".toList then return remove (← reqPath v "path".toList)
    else if tag = "status".toList then return status (← optPath v "path".toList)
    else if tag = "shutdown".toList then return shutdown
    else .error (.unknown tag)

/-- A request with its paths as their JSON reads back. -/
def recorded : Request → Request
  | addWatch path target => addWatch path.recorded target.recorded
  | addConverge path relay token workspace device team e2e name tlsCaCert =>
    addConverge path.recorded relay token workspace device team e2e name
      (tlsCaCert.map OsPath.recorded)
  | addMirror path workspace relay token name tlsCaCert =>
    addMirror path.recorded workspace relay token name (tlsCaCert.map OsPath.recorded)
  | list => list
  | remove path => remove path.recorded
  | status path => status (path.map OsPath.recorded)
  | shutdown => shutdown

end Request

/-! ## Responses -/

/-- The one response to a request (`Response`). -/
structure Response where
  result : Option Json
  error : Option Text

namespace Response

/-- `Response::ok` -/
def ok (result : Json) : Response := ⟨some result, none⟩

/-- `Response::err` -/
def err (message : Text) : Response := ⟨none, some message⟩

/-- `Response::to_json` -/
def toJson (r : Response) : Json :=
  match r.error with
  | some error => .obj [("ok".toList, .bool false), ("error".toList, .str error)]
  | none => .obj [("ok".toList, .bool true), ("result".toList, r.result.getD .null)]

/-- `Response::from_json` -/
def ofJson (v : Json) : Except DocumentError Response :=
  match (v.get "ok".toList).bind Json.asBool with
  | some true => .ok ⟨v.get "result".toList, none⟩
  | some false => do return ⟨none, some (← reqStr v "error".toList)⟩
  | none => .error (.untagged "ok".toList)

/-- `into_result`: the payload, or the daemon's message. -/
def intoResult (r : Response) : Except Text Json :=
  match r.error with
  | some error => .error ("peard: ".toList ++ error)
  | none => .ok (r.result.getD .null)

end Response

/-! ## Status entries -/

/-- One workspace's state as `list` and `status` report it (`EntryInfo`). -/
structure EntryInfo where
  path : OsPath
  role : Text
  target : Option OsPath
  relay : Option Text
  workspace : Option Text
  state : Text
  headSeq : UInt64
  error : Option Text
deriving DecidableEq

namespace EntryInfo

/-- `EntryInfo::to_json` -/
def toJson (e : EntryInfo) : Json := .obj [
  ("path".toList, .str e.path.lossy),
  ("role".toList, .str e.role),
  ("target".toList, .optional (e.target.map OsPath.lossy)),
  ("relay".toList, .optional e.relay),
  ("workspace".toList, .optional e.workspace),
  ("state".toList, .str e.state),
  ("head_seq".toList, .unsigned e.headSeq),
  ("error".toList, .optional e.error)]

/-- `EntryInfo::from_json` -/
def ofJson (v : Json) : Except DocumentError EntryInfo := do
  return {
    path := ← reqPath v "path".toList
    role := ← reqStr v "role".toList
    target := ← optPath v "target".toList
    relay := ← optStr v "relay".toList
    workspace := ← optStr v "workspace".toList
    state := ← reqStr v "state".toList
    headSeq := ← optU64 v "head_seq".toList
    error := ← optStr v "error".toList }

/-- `EntryInfo::list_from_json` -/
def listOfJson (v : Json) : Except DocumentError (List EntryInfo) :=
  match (v.get "workspaces".toList).bind Json.asArray with
  | some entries => entries.mapM ofJson
  | none => .error .noWorkspaces

/-- An entry with its paths as their JSON reads back. -/
def recorded (e : EntryInfo) : EntryInfo :=
  { e with path := e.path.recorded, target := e.target.map OsPath.recorded }

end EntryInfo

/-- The payload of `list` and `status`. -/
def workspacesJson (entries : List Json) : Json := .obj [("workspaces".toList, .arr entries)]

/-! ## Registrations -/

/-- What the daemon persists of a workspace: its path and arguments, and no token (`Registration`). -/
inductive Registration where
  | converge (path : OsPath) (relay : Text) (workspace device team : Option Text) (e2e : Bool)
      (name : Option Text) (tlsCaCert : Option OsPath)
  | watch (path target : OsPath)
  | mirror (path : OsPath) (workspace relay : Text) (name : Option Text) (tlsCaCert : Option OsPath)
deriving DecidableEq

namespace Registration

/-- `Registration::path` -/
def path : Registration → OsPath
  | converge path .. | watch path _ | mirror path .. => path

/-- `Registration::key`: the registry's key. -/
def key (r : Registration) : Text := r.path.lossy

/-- `Registration::role` -/
def role : Registration → Text
  | converge .. => "sync".toList
  | watch .. => "watch".toList
  | mirror .. => "mirror".toList

/-- `Registration::needs_token` -/
def needsToken : Registration → Bool
  | watch .. => false
  | _ => true

/-- `Registration::to_json` -/
def toJson : Registration → Json
  | converge path relay workspace device team e2e name tlsCaCert => .obj [
      ("role".toList, .str "sync".toList),
      ("path".toList, .str path.lossy),
      ("relay".toList, .str relay),
      ("workspace".toList, .optional workspace),
      ("device".toList, .optional device),
      ("team".toList, .optional team),
      ("e2e".toList, .bool e2e),
      ("name".toList, .optional name),
      ("tls_ca_cert".toList, .optional (tlsCaCert.map OsPath.lossy))]
  | watch path target => .obj [
      ("role".toList, .str "watch".toList),
      ("path".toList, .str path.lossy),
      ("target".toList, .str target.lossy)]
  | mirror path workspace relay name tlsCaCert => .obj [
      ("role".toList, .str "mirror".toList),
      ("path".toList, .str path.lossy),
      ("workspace".toList, .str workspace),
      ("relay".toList, .str relay),
      ("name".toList, .optional name),
      ("tls_ca_cert".toList, .optional (tlsCaCert.map OsPath.lossy))]

/-- `Registration::from_json` -/
def ofJson (v : Json) : Except DocumentError Registration := do
  match ← optStr v "role".toList with
  | none => .error (.untagged "role".toList)
  | some tag =>
    if tag = "sync".toList then
      return converge (← reqPath v "path".toList) (← reqStr v "relay".toList)
        (← optStr v "workspace".toList) (← optStr v "device".toList) (← optStr v "team".toList)
        (← optBool v "e2e".toList) (← optStr v "name".toList) (← optPath v "tls_ca_cert".toList)
    else if tag = "watch".toList then
      return watch (← reqPath v "path".toList) (← reqPath v "target".toList)
    else if tag = "mirror".toList then
      return mirror (← reqPath v "path".toList) (← reqStr v "workspace".toList)
        (← reqStr v "relay".toList) (← optStr v "name".toList) (← optPath v "tls_ca_cert".toList)
    else .error (.unknown tag)

/-- A registration with its paths as their JSON reads back. -/
def recorded : Registration → Registration
  | converge path relay workspace device team e2e name tlsCaCert =>
    converge path.recorded relay workspace device team e2e name (tlsCaCert.map OsPath.recorded)
  | watch path target => watch path.recorded target.recorded
  | mirror path workspace relay name tlsCaCert =>
    mirror path.recorded workspace relay name (tlsCaCert.map OsPath.recorded)

/-- The key outlives the round trip. -/
@[simp] theorem key_recorded (r : Registration) : r.recorded.key = r.key := by
  cases r <;> exact OsPath.lossy_recorded _

end Registration

/-- The document `save_state` writes. -/
def stateJson (registrations : List Registration) : Json :=
  workspacesJson (registrations.map Registration.toJson)

/-- What `load_state` reads of a document. -/
def registrationsOfJson (v : Json) : Except DocumentError (List Registration) :=
  match (v.get "workspaces".toList).bind Json.asArray with
  | some list => list.mapM Registration.ofJson
  | none => .error .noWorkspaces

/-! ## Reading back -/

section
variable {v : Json} {key : Text}

theorem optStr_optional {o : Option Text} (h : v.get key = some (.optional o)) :
    optStr v key = .ok o := by
  unfold optStr
  rw [h]
  cases o <;> rfl

theorem optStr_str {s : Text} (h : v.get key = some (.str s)) : optStr v key = .ok (some s) :=
  optStr_optional (o := some s) h

theorem reqStr_str {s : Text} (h : v.get key = some (.str s)) : reqStr v key = .ok s := by
  rw [reqStr, optStr_str h]
  rfl

theorem optBool_bool {b : Bool} (h : v.get key = some (.bool b)) : optBool v key = .ok b := by
  unfold optBool
  rw [h]

/-- A number that was written as a `u64` is read as one. -/
theorem asU64_toDigits (n : UInt64) : asU64 (Nat.toDigits 10 n.toNat) = some n := by
  have hdigits : (Nat.toDigits 10 n.toNat).all Char.isDigit :=
    List.all_eq_true.mpr fun c hc => Nat.isDigit_of_mem_toDigits (by decide) (by decide) hc
  have hval : Nat.ofDigitChars 10 (Nat.toDigits 10 n.toNat) 0 = n.toNat :=
    Nat.ofDigitChars_ten_toDigits
  rw [asU64, hval, if_pos ⟨Nat.toDigits_ne_nil, hdigits, n.toNat_lt⟩, UInt64.ofNat_toNat]

theorem optU64_unsigned {n : UInt64} (h : v.get key = some (.unsigned n)) : optU64 v key = .ok n := by
  unfold optU64
  rw [h]
  simp only [Json.unsigned, asU64_toDigits]

theorem reqPath_str {p : OsPath} (h : v.get key = some (.str p.lossy)) :
    reqPath v key = .ok p.recorded := by
  rw [reqPath, reqStr_str h]
  rfl

theorem optPath_optional {p : Option OsPath} (h : v.get key = some (.optional (p.map OsPath.lossy))) :
    optPath v key = .ok (p.map OsPath.recorded) := by
  rw [optPath, optStr_optional h]
  cases p <;> rfl

end

/-- **A request is read back as it was written**, with its paths as text. -/
theorem Request.ofJson_toJson (r : Request) : ofJson r.toJson = .ok r.recorded := by
  cases r with
  | list | shutdown => rfl
  | addWatch path target => rfl
  | remove path => rfl
  | status path => cases path <;> rfl
  | addConverge path relay token workspace device team e2e name tlsCaCert =>
    generalize hv : toJson _ = v
    have htag : optStr v "type".toList = .ok (some "add_converge".toList) :=
      optStr_str (by rw [← hv]; rfl)
    have hpath : reqPath v "path".toList = .ok path.recorded := reqPath_str (by rw [← hv]; rfl)
    have hrelay : reqStr v "relay".toList = .ok relay := reqStr_str (by rw [← hv]; rfl)
    have htoken : reqStr v "token".toList = .ok token := reqStr_str (by rw [← hv]; rfl)
    have hws : optStr v "workspace".toList = .ok workspace := optStr_optional (by rw [← hv]; rfl)
    have hdevice : optStr v "device".toList = .ok device := optStr_optional (by rw [← hv]; rfl)
    have hteam : optStr v "team".toList = .ok team := optStr_optional (by rw [← hv]; rfl)
    have he2e : optBool v "e2e".toList = .ok e2e := optBool_bool (by rw [← hv]; rfl)
    have hname : optStr v "name".toList = .ok name := optStr_optional (by rw [← hv]; rfl)
    have hca : optPath v "tls_ca_cert".toList = .ok (tlsCaCert.map OsPath.recorded) :=
      optPath_optional (by rw [← hv]; rfl)
    unfold ofJson
    rw [htag, hpath, hrelay, htoken, hws, hdevice, hteam, he2e, hname, hca]
    rfl
  | addMirror path workspace relay token name tlsCaCert =>
    generalize hv : toJson _ = v
    have htag : optStr v "type".toList = .ok (some "add_mirror".toList) :=
      optStr_str (by rw [← hv]; rfl)
    have hpath : reqPath v "path".toList = .ok path.recorded := reqPath_str (by rw [← hv]; rfl)
    have hws : reqStr v "workspace".toList = .ok workspace := reqStr_str (by rw [← hv]; rfl)
    have hrelay : reqStr v "relay".toList = .ok relay := reqStr_str (by rw [← hv]; rfl)
    have htoken : reqStr v "token".toList = .ok token := reqStr_str (by rw [← hv]; rfl)
    have hname : optStr v "name".toList = .ok name := optStr_optional (by rw [← hv]; rfl)
    have hca : optPath v "tls_ca_cert".toList = .ok (tlsCaCert.map OsPath.recorded) :=
      optPath_optional (by rw [← hv]; rfl)
    unfold ofJson
    rw [htag, hpath, hws, hrelay, htoken, hname, hca]
    rfl

/-- **A registration is read back as it was written**, with its paths as text. -/
theorem Registration.ofJson_toJson (r : Registration) : ofJson r.toJson = .ok r.recorded := by
  cases r with
  | watch path target => rfl
  | converge path relay workspace device team e2e name tlsCaCert =>
    generalize hv : toJson _ = v
    have htag : optStr v "role".toList = .ok (some "sync".toList) := optStr_str (by rw [← hv]; rfl)
    have hpath : reqPath v "path".toList = .ok path.recorded := reqPath_str (by rw [← hv]; rfl)
    have hrelay : reqStr v "relay".toList = .ok relay := reqStr_str (by rw [← hv]; rfl)
    have hws : optStr v "workspace".toList = .ok workspace := optStr_optional (by rw [← hv]; rfl)
    have hdevice : optStr v "device".toList = .ok device := optStr_optional (by rw [← hv]; rfl)
    have hteam : optStr v "team".toList = .ok team := optStr_optional (by rw [← hv]; rfl)
    have he2e : optBool v "e2e".toList = .ok e2e := optBool_bool (by rw [← hv]; rfl)
    have hname : optStr v "name".toList = .ok name := optStr_optional (by rw [← hv]; rfl)
    have hca : optPath v "tls_ca_cert".toList = .ok (tlsCaCert.map OsPath.recorded) :=
      optPath_optional (by rw [← hv]; rfl)
    unfold ofJson
    rw [htag, hpath, hrelay, hws, hdevice, hteam, he2e, hname, hca]
    rfl
  | mirror path workspace relay name tlsCaCert =>
    generalize hv : toJson _ = v
    have htag : optStr v "role".toList = .ok (some "mirror".toList) :=
      optStr_str (by rw [← hv]; rfl)
    have hpath : reqPath v "path".toList = .ok path.recorded := reqPath_str (by rw [← hv]; rfl)
    have hws : reqStr v "workspace".toList = .ok workspace := reqStr_str (by rw [← hv]; rfl)
    have hrelay : reqStr v "relay".toList = .ok relay := reqStr_str (by rw [← hv]; rfl)
    have hname : optStr v "name".toList = .ok name := optStr_optional (by rw [← hv]; rfl)
    have hca : optPath v "tls_ca_cert".toList = .ok (tlsCaCert.map OsPath.recorded) :=
      optPath_optional (by rw [← hv]; rfl)
    unfold ofJson
    rw [htag, hpath, hws, hrelay, hname, hca]
    rfl

/-- An entry is read back as it was written, with its paths as text. -/
theorem EntryInfo.ofJson_toJson (e : EntryInfo) : ofJson e.toJson = .ok e.recorded := by
  generalize hv : e.toJson = v
  have hpath : reqPath v "path".toList = .ok e.path.recorded := reqPath_str (by rw [← hv]; rfl)
  have hrole : reqStr v "role".toList = .ok e.role := reqStr_str (by rw [← hv]; rfl)
  have htarget : optPath v "target".toList = .ok (e.target.map OsPath.recorded) :=
    optPath_optional (by rw [← hv]; rfl)
  have hrelay : optStr v "relay".toList = .ok e.relay := optStr_optional (by rw [← hv]; rfl)
  have hws : optStr v "workspace".toList = .ok e.workspace := optStr_optional (by rw [← hv]; rfl)
  have hstate : reqStr v "state".toList = .ok e.state := reqStr_str (by rw [← hv]; rfl)
  have hseq : optU64 v "head_seq".toList = .ok e.headSeq := optU64_unsigned (by rw [← hv]; rfl)
  have herror : optStr v "error".toList = .ok e.error := optStr_optional (by rw [← hv]; rfl)
  unfold ofJson
  rw [hpath, hrole, htarget, hrelay, hws, hstate, hseq, herror]
  rfl

/-- Reading back what was written, element by element. -/
theorem mapM_read_write {α β ε : Type} {read : β → Except ε α} {write : α → β} {kept : α → α}
    (h : ∀ a, read (write a) = .ok (kept a)) :
    ∀ as : List α, (as.map write).mapM read = .ok (as.map kept)
  | [] => rfl
  | a :: as => by
    rw [List.map_cons, List.mapM_cons, h, mapM_read_write h as]
    rfl

/-- A list of entries is read back. -/
theorem EntryInfo.listOfJson_workspacesJson (es : List EntryInfo) :
    listOfJson (workspacesJson (es.map EntryInfo.toJson)) = .ok (es.map EntryInfo.recorded) :=
  mapM_read_write EntryInfo.ofJson_toJson es

/-- **The state document is read back.** -/
theorem registrationsOfJson_stateJson (rs : List Registration) :
    registrationsOfJson (stateJson rs) = .ok (rs.map Registration.recorded) :=
  mapM_read_write Registration.ofJson_toJson rs

/-! ## What is accepted -/

section
variable {v : Json} {key : Text}

/-- A path that is read is text. -/
theorem reqPath_recorded {p : OsPath} (h : reqPath v key = .ok p) : p.recorded = p := by
  unfold reqPath at h
  cases hs : reqStr v key with
  | error e =>
    rw [hs] at h
    cases h
  | ok s =>
    rw [hs] at h
    cases h
    exact OsPath.recorded_ofText s

theorem optPath_recorded {p : Option OsPath} (h : optPath v key = .ok p) :
    p.map OsPath.recorded = p := by
  unfold optPath at h
  cases hs : optStr v key with
  | error e =>
    rw [hs] at h
    cases h
  | ok o =>
    rw [hs] at h
    cases h
    cases o with
    | none => rfl
    | some s => exact congrArg some (OsPath.recorded_ofText s)

end

/-- **A request that was accepted has text for its paths**, so it is written and read back as it is. -/
theorem Request.recorded_of_ofJson {v : Json} {r : Request} (h : ofJson v = .ok r) :
    r.recorded = r := by
  unfold ofJson at h
  obtain ⟨tag, -, h⟩ := bind_eq_ok_iff.mp h
  cases tag with
  | none => cases h
  | some tag =>
    dsimp only at h
    split at h
    · obtain ⟨path, hpath, h⟩ := bind_eq_ok_iff.mp h
      obtain ⟨target, htarget, h⟩ := bind_eq_ok_iff.mp h
      cases h
      rw [recorded, reqPath_recorded hpath, reqPath_recorded htarget]
    split at h
    · obtain ⟨path, hpath, h⟩ := bind_eq_ok_iff.mp h
      iterate 7 obtain ⟨_, -, h⟩ := bind_eq_ok_iff.mp h
      obtain ⟨ca, hca, h⟩ := bind_eq_ok_iff.mp h
      cases h
      rw [recorded, reqPath_recorded hpath, optPath_recorded hca]
    split at h
    · obtain ⟨path, hpath, h⟩ := bind_eq_ok_iff.mp h
      iterate 4 obtain ⟨_, -, h⟩ := bind_eq_ok_iff.mp h
      obtain ⟨ca, hca, h⟩ := bind_eq_ok_iff.mp h
      cases h
      rw [recorded, reqPath_recorded hpath, optPath_recorded hca]
    split at h
    · cases h
      rfl
    split at h
    · obtain ⟨path, hpath, h⟩ := bind_eq_ok_iff.mp h
      cases h
      rw [recorded, reqPath_recorded hpath]
    split at h
    · obtain ⟨path, hpath, h⟩ := bind_eq_ok_iff.mp h
      cases h
      rw [recorded, optPath_recorded hpath]
    split at h
    · cases h
      rfl
    · cases h

/-- A registration that was accepted has text for its paths. -/
theorem Registration.recorded_of_ofJson {v : Json} {r : Registration} (h : ofJson v = .ok r) :
    r.recorded = r := by
  unfold ofJson at h
  obtain ⟨tag, -, h⟩ := bind_eq_ok_iff.mp h
  cases tag with
  | none => cases h
  | some tag =>
    dsimp only at h
    split at h
    · obtain ⟨path, hpath, h⟩ := bind_eq_ok_iff.mp h
      iterate 6 obtain ⟨_, -, h⟩ := bind_eq_ok_iff.mp h
      obtain ⟨ca, hca, h⟩ := bind_eq_ok_iff.mp h
      cases h
      rw [recorded, reqPath_recorded hpath, optPath_recorded hca]
    split at h
    · obtain ⟨path, hpath, h⟩ := bind_eq_ok_iff.mp h
      obtain ⟨target, htarget, h⟩ := bind_eq_ok_iff.mp h
      cases h
      rw [recorded, reqPath_recorded hpath, reqPath_recorded htarget]
    split at h
    · obtain ⟨path, hpath, h⟩ := bind_eq_ok_iff.mp h
      iterate 3 obtain ⟨_, -, h⟩ := bind_eq_ok_iff.mp h
      obtain ⟨ca, hca, h⟩ := bind_eq_ok_iff.mp h
      cases h
      rw [recorded, reqPath_recorded hpath, optPath_recorded hca]
    · cases h

/-! ## The exchange -/

/-- What a client takes from a response is what the daemon put in. -/
theorem Response.intoResult_ok (result : Json) :
    (ofJson (ok result).toJson).map intoResult = .ok (.ok result) := rfl

theorem Response.intoResult_err (message : Text) :
    (ofJson (err message).toJson).map intoResult = .ok (.error ("peard: ".toList ++ message)) := rfl

/-- A state that was accepted has text for its paths. -/
theorem recorded_of_registrationsOfJson {v : Json} {rs : List Registration}
    (h : registrationsOfJson v = .ok rs) : rs.map Registration.recorded = rs := by
  have hmap : ∀ (vs : List Json) (rs : List Registration), vs.mapM Registration.ofJson = .ok rs →
      rs.map Registration.recorded = rs := by
    intro vs
    induction vs with
    | nil =>
      intro rs hrs
      cases hrs
      rfl
    | cons v vs ih =>
      intro rs hrs
      rw [List.mapM_cons] at hrs
      obtain ⟨r, hr, hrs⟩ := bind_eq_ok_iff.mp hrs
      obtain ⟨rest, hrest, hrs⟩ := bind_eq_ok_iff.mp hrs
      cases hrs
      rw [List.map_cons, Registration.recorded_of_ofJson hr, ih rest hrest]
  unfold registrationsOfJson at h
  split at h
  · exact hmap _ _ h
  · cases h

/-- **The documents of the daemon round-trip.** Whatever a client, the daemon or `save_state` writes is
read back with its paths as text; whatever is accepted from arbitrary JSON, a request or a state, is
written and read back as it is; and a client takes from a response the payload, or the message, that the
daemon put in, so also the entry of an add and the entries of a list. -/
theorem daemon_documents_roundtrip :
    (∀ r : Request, Request.ofJson r.toJson = .ok r.recorded) ∧
      (∀ (v : Json) (r : Request), Request.ofJson v = .ok r → Request.ofJson r.toJson = .ok r) ∧
      (∀ rs : List Registration,
        registrationsOfJson (stateJson rs) = .ok (rs.map Registration.recorded)) ∧
      (∀ (v : Json) (rs : List Registration), registrationsOfJson v = .ok rs →
        registrationsOfJson (stateJson rs) = .ok rs) ∧
      (∀ result : Json, (Response.ofJson (Response.ok result).toJson).map Response.intoResult =
        .ok (.ok result)) ∧
      (∀ message : Text, (Response.ofJson (Response.err message).toJson).map Response.intoResult =
        .ok (.error ("peard: ".toList ++ message))) ∧
      (∀ e : EntryInfo, EntryInfo.ofJson e.toJson = .ok e.recorded) ∧
      ∀ es : List EntryInfo, EntryInfo.listOfJson (workspacesJson (es.map EntryInfo.toJson)) =
        .ok (es.map EntryInfo.recorded) := by
  refine ⟨Request.ofJson_toJson, fun v r h => ?_, registrationsOfJson_stateJson, fun v rs h => ?_,
    Response.intoResult_ok, Response.intoResult_err, EntryInfo.ofJson_toJson,
    EntryInfo.listOfJson_workspacesJson⟩
  · rw [Request.ofJson_toJson, Request.recorded_of_ofJson h]
  · rw [registrationsOfJson_stateJson, recorded_of_registrationsOfJson h]

/-- The state of a watch whose path is not Unicode: it is accepted when it is written, and read back as
text. -/
theorem daemon_documents_roundtrip_bytes :
    registrationsOfJson (stateJson [.watch [.inl '/', .inr [0xff]] (OsPath.ofText "/t".toList)]) =
        .ok [.watch [.inl '/', .inl '\uFFFD'] (OsPath.ofText "/t".toList)] ∧
      registrationsOfJson (stateJson [.watch [.inl '/', .inl '\uFFFD'] (OsPath.ofText "/t".toList)]) =
        .ok [.watch [.inl '/', .inl '\uFFFD'] (OsPath.ofText "/t".toList)] := by
  have hread := daemon_documents_roundtrip.2.2.1
    [.watch [.inl '/', .inr [0xff]] (OsPath.ofText "/t".toList)]
  exact ⟨hread, daemon_documents_roundtrip.2.2.2.1 _ _ hread⟩

end Pear
