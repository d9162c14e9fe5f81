import Pear.Manifest

/-!
# The three-way merge

`merge` (`merge.rs`) decides every path any side knows on its own (`decidePath`), gives each losing
entry a conflict-copy name no input path uses (`NameSpace.claim`), and assembles the merged
manifest. It is a pure function: the device name and the time stamp are arguments. The rules, in
table order: equal sides stand, a side that alone moved wins, an edit beats a delete, equal content
takes the newer modification time, and otherwise the newer entry wins the path and the older one
becomes a conflict copy, with ties going to the remote.
-/

namespace Pear

/-! ## Per-path decisions -/

/-- The side whose entry lost a path and is kept as a conflict copy. -/
inductive ConflictSide where
  | localSide
  | remoteSide
deriving DecidableEq

/-- The outcome for one path. `winner none` says the path is deleted. -/
inductive Decision where
  | winner (entry : Option FileEntry)
  | conflict (winner : FileEntry) (loserSide : ConflictSide) (loser : FileEntry)
deriving DecidableEq

/-- An entry's modification time, compared seconds first. -/
def mtime (e : FileEntry) : Int × Int := (e.mtimeSecs, e.mtimeNanos)

/-- `mtime(a) >= mtime(b)` on pairs of seconds and nanoseconds. -/
def mtimeGe (a b : FileEntry) : Bool :=
  (mtime b).1 < (mtime a).1 || ((mtime b).1 = (mtime a).1 && (mtime b).2 ≤ (mtime a).2)

/-- Same chunks, mode and size: entries that differ at most in modification time. -/
def sameContent (a b : FileEntry) : Bool :=
  a.chunks = b.chunks && a.mode = b.mode && a.size = b.size

/-- The rule table for one path, from its entries in base, local and remote (`decide`). -/
def decidePath (b l r : Option FileEntry) : Decision :=
  if l = r then .winner l
  else if l = b then .winner r
  else if r = b then .winner l
  else
    match l, r with
    | none, some _ => .winner r
    | some _, none => .winner l
    | some le, some re =>
      if sameContent le re then .winner (some (if mtimeGe re le then re else le))
      else if mtimeGe re le then .conflict re .localSide le
      else .conflict le .remoteSide re
    | none, none => .winner none

/-! ## Conflict-copy names -/

/-- The repository's own state: `.git` itself or anything below it (`is_git_path`). -/
def isGitPath (path : Text) : Bool :=
  path = ".git".toList || ".git/".toList.isPrefixOf path

/-- Every name a conflict copy must avoid. -/
structure NameSpace where
  taken : List Text

/-- The keys of both inputs and every directory prefix of one (`NameSpace::new`). -/
def NameSpace.new (l r : FileMap) : NameSpace where
  taken := (l.keys ++ r.keys).flatMap fun path => path :: ancestors path

/-- A path's directory, with its separator, and its last name. -/
def splitDir (path : Text) : Text × Text :=
  match rsplit '/' path with
  | some (dir, name) => (dir ++ ['/'], name)
  | none => ([], path)

/-- A name around its last dot, which belongs to the extension. A leading dot is no extension. -/
def splitExt (name : Text) : Text × Text :=
  match rsplit '.' name with
  | some (stem, ext) => if stem = [] then (name, []) else (stem, '.' :: ext)
  | none => (name, [])

/-- The suffix that tells the `n`-th candidate apart: nothing for the first. -/
def ordinal (n : Nat) : Text :=
  if n = 1 then [] else ' ' :: Nat.toDigits 10 n

/-- The fixed words of a conflict copy's name. -/
def conflictFrom : Text := " (conflict from ".toList

/-- What stands between stem and ordinal. -/
def conflictLabel (device stamp : Text) : Text :=
  conflictFrom ++ device ++ ' ' :: stamp ++ [')']

/-- The `n`-th candidate for the conflict copy of `path`, in `path`'s own directory. -/
def candidate (path device stamp : Text) (n : Nat) : Text :=
  (splitDir path).1 ++ ((splitExt (splitDir path).2).1 ++ conflictLabel device stamp ++ ordinal n ++
    (splitExt (splitDir path).2).2)

/-- The first candidate from the `n`-th on that is not taken. A set of `fuel` names cannot hold
`fuel + 1` candidates, so running out of fuel is finding one (`claimFrom_not_mem`). -/
def claimFrom (taken : List Text) (name : Nat → Text) : Nat → Nat → Text
  | 0, n => name n
  | fuel + 1, n => if name n ∈ taken then claimFrom taken name fuel (n + 1) else name n

/-- Claim a conflict-copy name for `path`: the first candidate not taken, which is taken from then
on (`NameSpace::claim`). -/
def NameSpace.claim (names : NameSpace) (path device stamp : Text) : Text × NameSpace :=
  let name := claimFrom names.taken (candidate path device stamp) names.taken.length 1
  (name, { taken := name :: names.taken })

/-- `char::is_control`: the general category `Cc`. -/
def isControl (c : Char) : Bool :=
  c.toNat < 0x20 || (0x7f ≤ c.toNat && c.toNat < 0xa0)

/-- `char::is_whitespace`: the property `White_Space`. -/
def isWhiteSpace (c : Char) : Bool :=
  let n := c.toNat
  (9 ≤ n && n ≤ 13) || n = 0x20 || n = 0x85 || n = 0xa0 || n = 0x1680 ||
    (0x2000 ≤ n && n ≤ 0x200a) || n = 0x2028 || n = 0x2029 || n = 0x202f || n = 0x205f || n = 0x3000

/-- `str::trim`. -/
def trim (s : Text) : Text :=
  ((s.dropWhile isWhiteSpace).reverse.dropWhile isWhiteSpace).reverse

/-- A device name made fit for a path: separators and control characters become `_`
(`sanitize_device`). -/
def sanitizeDevice (device : Text) : Text :=
  let cleaned := trim (device.map fun c => if c = '/' || c = '\\' || isControl c then '_' else c)
  if cleaned = [] then "device".toList else cleaned

/-! ## The merge -/

/-- Where the conflict copy of a path under `.git` is kept: on this device only. -/
def localConflictDir : Text := ".pear/conflicts".toList

/-- One conflict copy the converge must put on disk. -/
structure ConflictCopy where
  side : ConflictSide
  /-- The contested path, where the winner's entry lives. -/
  path : Text
  /-- Where the loser's content is kept. -/
  copyPath : Text
  /-- The copy stays out of the merged manifest. -/
  localOnly : Bool
  /-- The loser's entry. -/
  entry : FileEntry
deriving DecidableEq

/-- The result of one merge. -/
structure MergeOutcome where
  merged : Manifest
  applyFromRemote : ManifestDiff
  conflicts : List ConflictCopy
deriving DecidableEq

/-- What the loop over the paths carries. -/
structure MergeState where
  names : NameSpace
  files : FileMap
  conflicts : List ConflictCopy

/-- The label of a conflict copy: this device for its own losers, `remote` for the others. -/
def ConflictSide.label (device : Text) : ConflictSide → Text
  | .localSide => device
  | .remoteSide => "remote".toList

/-- One round of the loop: decide a path and record the outcome. -/
def MergeState.step (base l r : FileMap) (device stamp : Text) (s : MergeState) (path : Text) :
    MergeState :=
  match decidePath base[path]? l[path]? r[path]? with
  | .winner (some entry) => { s with files := s.files.insert path entry }
  | .winner none => s
  | .conflict winner side loser =>
    let (name, names) := s.names.claim path (side.label device) stamp
    let files := s.files.insert path winner
    if isGitPath path then
      { names, files, conflicts := s.conflicts ++
          [{ side, path, copyPath := localConflictDir ++ '/' :: name, localOnly := true,
             entry := loser }] }
    else
      { names, files := files.insert name loser, conflicts := s.conflicts ++
          [{ side, path, copyPath := name, localOnly := false, entry := loser }] }

/-- Every path any side knows, in order. -/
def mergePaths (base l r : FileMap) : List Text := (base ∪ l ∪ r).keys

/-- The loop over all paths, from the names both inputs take. -/
def mergeLoop (base l r : FileMap) (device stamp : Text) : MergeState :=
  (mergePaths base l r).foldl (MergeState.step base l r device stamp)
    { names := .new l r, files := ∅, conflicts := [] }

/-- The three-way merge of `base`, `l` (a fresh scan) and `r` (the relay head). -/
def merge (base l r : Manifest) (localDevice stamp : Text) : MergeOutcome :=
  let s := mergeLoop base.files l.files r.files (sanitizeDevice localDevice) stamp
  let localCopies := (s.conflicts.filter fun c => c.side = .localSide && !c.localOnly).map (·.copyPath)
  let d := diff l.files s.files
  { merged :=
      { version := formatVersion
        workspaceId := l.workspaceId
        scannedAtSecs := l.scannedAtSecs
        files := s.files }
    applyFromRemote := { d with added := d.added.filter (· ∉ localCopies) }
    conflicts := s.conflicts }

/-! ## The time stamp -/

/-- Days since the epoch to year, month and day (`civil_from_days`). -/
def civilFromDays (days : Int) : Int × Int × Int :=
  let z := days + 719468
  let era := z / 146097
  let doe := z % 146097
  let yoe := (doe - doe / 1460 + doe / 36524 - doe / 146096) / 365
  let y := yoe + era * 400
  let doy := doe - (365 * yoe + yoe / 4 - yoe / 100)
  let mp := (5 * doy + 2) / 153
  let d := doy - (153 * mp + 2) / 5 + 1
  let m := if mp < 10 then mp + 3 else mp - 9
  (if m ≤ 2 then y + 1 else y, m, d)

/-- Decimal digits, padded with zeros to a width (`{:04}`, `{:02}`). A stamp's fields are never
negative, since the clock is cut off at the epoch. -/
def padded (width : Nat) (n : Int) : Text :=
  (Nat.toDigits 10 n.toNat).leftpad width '0'

/-- The stamp `YYYY-MM-DD HHMMSS` of a clock reading, in seconds since the epoch and zero before it
(`conflict_stamp`). -/
def conflictStamp (now : Int) : Text :=
  let secs := max now 0
  let (y, m, d) := civilFromDays (secs / 86400)
  let tod := secs % 86400
  padded 4 y ++ '-' :: padded 2 m ++ '-' :: padded 2 d ++ ' ' :: padded 2 (tod / 3600) ++
    padded 2 (tod % 3600 / 60) ++ padded 2 (tod % 60)

example : conflictStamp 1784907000 = "2026-07-24 153000".toList := by decide

/-! ## Fixtures of the unit tests -/

/-- A test entry with content `seed` (`tests::e`, whose hash is the seed's two hex digits repeated;
here a seed below ten). -/
def testEntry (seed : Nat) (mtimeSecs : Int) : FileEntry where
  size := seed + 1
  mode := 0o644
  mtimeSecs := mtimeSecs
  mtimeNanos := 0
  chunks := [(List.replicate 32 ['0', seed.digitChar]).flatten]

/-- A test manifest with the given files (`tests::manifest`). -/
def testManifest (entries : List (Text × FileEntry)) : Manifest :=
  { Manifest.new "ws".toList with files := .ofList entries compare }

end Pear
