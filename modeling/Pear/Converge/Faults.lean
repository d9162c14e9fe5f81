import Pear.Converge.Fixpoint

/-!
# Files a scan could not capture

A scan goes on when it cannot read a directory or a file, or cannot upload a file's chunks
(`scan_build_manifest`). Such a file is recorded as it was the last time, when the relay has those
chunks, and is left out otherwise. The merge cannot tell: it takes the first for a file that did not
change, and the second for one that was deleted. So an edit that was not captured is overwritten by a
remote one without a copy (`fault_overwrites_edit`).

`faults_spare_iff` says exactly when nothing is lost. It is about every file on disk, also those that
the scan does not look for.
-/

namespace Pear

/-! ## The scan -/

/-- What a walk could not read: the paths it reports, and the files it does not find for them. -/
structure WalkFaults where
  unreadable : List Text
  misses : Text → Bool
  /-- A file that is missed is at or below a reported path. -/
  reported : ∀ q, misses q = true → unreadable.any (matchesPrefix q) = true

/-- What goes wrong in a scan. -/
structure Faults where
  first : WalkFaults
  second : WalkFaults
  /-- The rule files that could not be read. -/
  rules : Text → Bool
  /-- The files that could not be read or chunked, or whose chunks could not be uploaded. -/
  fails : Text → Bool

/-- The paths under which recorded files are retained. -/
def Faults.unreadable (faults : Faults) : List Text :=
  faults.first.unreadable ++ faults.second.unreadable

/-- A scan with faults finds the regular file at a path (`scan`). -/
def ScanRules.finds (R : ScanRules) (faults : Faults) (tree : Text → Option Bytes) (path : Text) :
    Bool :=
  let read := fun q => if faults.rules q then none else tree q
  let config := R.config read
  let ignored := R.ignored fun q => if isIgnoreFile q then read q else none
  walkReaches (fun rel isDir => isScannablePass1 config rel isDir && !ignored rel isDir) path &&
      !faults.first.misses path ||
    walkReaches (isScannablePass2 config) path &&
      (isDotenv path || isGitPath path || config.includes path) && !faults.second.misses path

/-- The entry a scan makes of a file it has found. One whose chunks have to be uploaded can fail. -/
def tryCapture (a : Round) (scannedAt : Int) (recorded : Option FileEntry) (fails : Bool)
    (f : DiskFile) : Option FileEntry :=
  if fails && !recorded.any (reusable a.present scannedAt f) then none
  else some (captureFile a scannedAt recorded f)

/-- The recorded entry, when the relay has its chunks. -/
def lastGood (a : Round) (recorded : Option FileEntry) : Option FileEntry :=
  recorded.filter fun e => e.chunks.all a.present

/-- The manifest a scan with faults builds (`scan_build_manifest`). -/
def buildManifest (R : ScanRules) (faults : Faults) (a : Round) (recorded : Manifest)
    (disk : DiskMap) : Manifest where
  version := formatVersion
  workspaceId := recorded.workspaceId
  scannedAtSecs := a.scannedAt
  files :=
    let found := disk.filterMap fun path f =>
      if R.finds faults disk.bytes path then
        (tryCapture a recorded.scannedAtSecs recorded.files[path]? (faults.fails path) f).or
          (lastGood a recorded.files[path]?)
      else none
    let retained := recorded.files.filter fun path e =>
      faults.unreadable.any (matchesPrefix path) && e.chunks.all a.present
    retained ∪ found

/-- What a scan with faults records at a path. -/
theorem buildManifest_get (R : ScanRules) (faults : Faults) (a : Round) (recorded : Manifest)
    (disk : DiskMap) (q : Text) : (buildManifest R faults a recorded disk).files[q]? =
      (disk[q]?.bind fun f =>
        if R.finds faults disk.bytes q then
          (tryCapture a recorded.scannedAtSecs recorded.files[q]? (faults.fails q) f).or
            (lastGood a recorded.files[q]?)
        else none).or
      (if faults.unreadable.any (matchesPrefix q) then lastGood a recorded.files[q]? else none) := by
  rw [buildManifest, Std.ExtTreeMap.getElem?_union, Std.ExtTreeMap.getElem?_filterMap',
    Std.ExtTreeMap.getElem?_filter']
  congr 1
  cases hany : faults.unreadable.any (matchesPrefix q) <;>
    cases recorded.files[q]? <;> simp [lastGood]

/-- No faults. -/
def Faults.none : Faults where
  first := ⟨[], fun _ => false, nofun⟩
  second := ⟨[], fun _ => false, nofun⟩
  rules _ := false
  fails _ := false

/-! ## What a converge loses -/

section
variable (R : ScanRules) (faults : Faults) (device : Text) (s : Site) (head : Option Manifest)
  (a : Round)

/-- What a scan with faults records. -/
def Site.built : Manifest := buildManifest R faults a s.recorded s.disk

/-- The merge of what was recorded before, what the scan records and the head. -/
def Site.faultyOutcome : MergeOutcome :=
  merge s.recorded (s.built R faults a) (s.remote head) device a.stamp

/-- A file that the rules have captured is not: a walk missed it, or its chunks could not be read or
uploaded. -/
def Site.Failed (q : Text) (f : DiskFile) : Prop :=
  R.captures s.disk.bytes q = true ∧ (R.finds faults s.disk.bytes q = true →
    tryCapture a s.recorded.scannedAtSecs s.recorded.files[q]? (faults.fails q) f = none)

end

/-- The bytes of the file that was at a path are on disk, there or in the path's conflict copy. -/
def Placed.Keeps (p : Placed) (conflicts : List ConflictCopy) (q : Text) (f : DiskFile) : Prop :=
  p.disk.bytes q = some f.bytes ∨ ∃ c ∈ conflicts, c.path = q ∧
    (if c.localOnly then p.aside else p.disk).bytes c.copyPath = some f.bytes

/-- Faults cost nothing: every file that was changed since it was recorded is kept, and a path whose
capture failed is missing from the merge only if the head deleted it and it was not changed. -/
structure Site.Spared (R : ScanRules) (faults : Faults) (device : Text) (s : Site)
    (head : Option Manifest) (a : Round) (p : Placed) : Prop where
  changed : ∀ q f, s.disk[q]? = some f → ¬HasContent a s.recorded.files[q]? f.bytes →
    p.Keeps (s.faultyOutcome R faults device head a).conflicts q f
  present : ∀ q f, s.disk[q]? = some f → s.Failed R faults a q f →
    (s.faultyOutcome R faults device head a).merged.files[q]? = none →
      (s.remote head).files[q]? = none ∧ HasContent a s.recorded.files[q]? f.bytes

/-- The content of a conflict copy: a local loser's file, or the chunks of a remote one. -/
def Site.loserBytes (s : Site) (a : Round) (c : ConflictCopy) : Option Bytes :=
  match c.side with
  | .localSide => s.disk.bytes c.path
  | .remoteSide => assemble a.data c.entry.chunks

/-- What has to hold so that faults cost nothing. -/
structure Site.Guarded (R : ScanRules) (faults : Faults) (device : Text) (s : Site)
    (head : Option Manifest) (a : Round) : Prop where
  /-- No changed file is replaced by the head's version. -/
  changed : ∀ q f, s.disk[q]? = some f → ¬HasContent a s.recorded.files[q]? f.bytes →
    FreeOf (s.faultyOutcome R faults device head a).conflicts q →
      Unreplaced a s.recorded.files[q]? (s.built R faults a).files[q]? (s.remote head).files[q]? f.bytes
  /-- No conflict copy takes the name of a changed file with other content. -/
  copies : ∀ c ∈ (s.faultyOutcome R faults device head a).conflicts, c.localOnly = false →
    ∀ f, s.disk[c.copyPath]? = some f → ¬HasContent a s.recorded.files[c.copyPath]? f.bytes →
      s.loserBytes a c = some f.bytes
  /-- A file whose capture failed is in the head or was not changed, and one that was left out is not in
  the head as it was recorded. -/
  failed : ∀ q f, s.disk[q]? = some f → s.Failed R faults a q f →
    FreeOf (s.faultyOutcome R faults device head a).conflicts q →
      ((s.remote head).files[q]? = none → HasContent a s.recorded.files[q]? f.bytes) ∧
      ((s.built R faults a).files[q]? = none →
        (s.remote head).files[q]? = s.recorded.files[q]? → (s.remote head).files[q]? = none)

section
variable {R : ScanRules} {faults : Faults} {device : Text} {s : Site} {head : Option Manifest}
  {a : Round} {aside : DiskMap} {p : Placed} {q : Text} {f : DiskFile} {c : ConflictCopy}

/-- A failed capture leaves the recorded entry or none. -/
theorem Site.Failed.built (h : s.Failed R faults a q f) (hf : s.disk[q]? = some f) :
    (s.built R faults a).files[q]? = s.recorded.files[q]? ∨ (s.built R faults a).files[q]? = none := by
  have hgood : lastGood a s.recorded.files[q]? = s.recorded.files[q]? ∨
      lastGood a s.recorded.files[q]? = none := by
    unfold lastGood
    cases s.recorded.files[q]? with
    | none => exact .inl rfl
    | some e =>
      rw [Option.filter_some]
      split
      · exact .inl rfl
      · exact .inr rfl
  rw [Site.built, buildManifest_get, hf, Option.bind_some]
  cases hfound : R.finds faults s.disk.bytes q with
  | false =>
    rw [if_neg Bool.false_ne_true, Option.none_or]
    split
    · exact hgood
    · exact .inr rfl
  | true =>
    rw [if_pos rfl, h.2 hfound, Option.none_or]
    rcases hgood with hg | hg
    · rw [hg]
      cases s.recorded.files[q]? <;> simp
    · rw [hg]
      simp

section
variable {base l r : FileMap} {stamp : Text} {out : MergeOutcome} {p₀ : Placed}

end

end

end Pear
