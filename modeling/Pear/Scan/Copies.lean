import Pear.Scan.Precedence
import Pear.Merge.Valid

/-!
# Conflict copies under the scan

A conflict copy stands beside the file it is for, under another last name. So the walk comes to it as
it comes to the file, and the `.env*` rule and the ignore files treat the two alike. The `[sync]`
table need not: an entry may name the file itself. When a file is captured only through such an
`include` entry, or an `exclude` entry names the copy, the copy is not captured and the next scan
reports it as deleted (`captures_copy_iff`).
-/

namespace Pear

/-- The files below a path's directories are captured without an `include` entry for the path itself:
an entry includes one of the directories, or none of them has a built-in name on which the path would
be shadowed, and the path needs no entry against the ignore files either. -/
def SyncConfig.CapturesBeside (config : SyncConfig) (ignored : Text → Bool → Bool) (path : Text) :
    Prop :=
  (∃ p ∈ config.includePaths, p ∈ ancestors path) ∨
    config.shadowed path = false ∧ (isDotenv path = true ∨ notIgnored ignored path = true)

section
variable {config : SyncConfig} {ignored : Text → Bool → Bool} {path device stamp : Text} {n : Nat}

/-- **A conflict copy of a captured file is captured** exactly when no `exclude` entry names it, and
an `include` entry names it or files beside the original are captured without one. -/
theorem captures_candidate_iff (hd : '/' ∉ device) (hs : '/' ∉ stamp)
    (hgit : isGitPath path = false)
    (hlike : ignored (candidate path device stamp n) false = ignored path false)
    (hcap : scanCaptures config ignored path = true) :
    scanCaptures config ignored (candidate path device stamp n) = true ↔
      candidate path device stamp n ∉ config.excludePaths ∧
        (candidate path device stamp n ∈ config.includePaths ∨
          config.CapturesBeside ignored path) := by
  have hanc : ancestors (candidate path device stamp n) = ancestors path := ancestors_candidate hd hs
  have hgit' : isGitPath (candidate path device stamp n) = false := Bool.eq_false_iff.mpr fun h =>
    Bool.eq_false_iff.mp hgit (isGitPath_of_candidate h)
  rw [scanCaptures_eq hgit, Bool.and_eq_true, rulesKeep, walkReaches, Bool.and_eq_true,
    isNotExcludedDir_file] at hcap
  obtain ⟨⟨hdirs, -, hexc, hkeep⟩, hreach⟩ := hcap
  have hignored : notIgnored ignored (candidate path device stamp n) = notIgnored ignored path := by
    rw [notIgnored, notIgnored, walkReaches, walkReaches, hanc, hlike]
  have hshadow : config.shadowed (candidate path device stamp n) = config.shadowed path := by
    rw [SyncConfig.shadowed, SyncConfig.shadowed, hanc]
  have hexcl : config.excludes (candidate path device stamp n) = false ↔
      candidate path device stamp n ∉ config.excludePaths := by
    rw [← Bool.not_eq_true, SyncConfig.excludes_iff, hanc]
    have hnone : ¬ ∃ p ∈ config.excludePaths, p ∈ ancestors path := fun h =>
      Bool.eq_false_iff.mp hexc (SyncConfig.excludes_iff.mpr (.inr h))
    simp [hnone]
  have hroot : (atRoot (candidate path device stamp n) &&
      eqIgnoreAsciiCase (lastName (candidate path device stamp n)) pearDir) = false := by
    rw [Bool.and_eq_false_iff]
    refine .inr (decide_eq_false fun hname => ?_)
    have hbracket : '(' ∈ pearDir.map Char.toLower := by
      rw [← hname, lastName, splitDir_candidate hd hs]
      exact List.mem_map_of_mem (f := Char.toLower) bracket_mem_candidateName
    exact absurd hbracket (by decide)
  rw [scanCaptures_eq hgit', Bool.and_eq_true, rulesKeep, walkReaches, Bool.and_eq_true, hanc,
    isNotExcludedDir_file, and_iff_right hdirs, and_iff_right hroot, hexcl, and_assoc, hshadow,
    hignored, isDotenv_candidate hd hs]
  refine and_congr_right fun _ => ?_
  have hinc : config.includes (candidate path device stamp n) = true ↔ _ := SyncConfig.includes_iff
  rw [hanc] at hinc
  simp only [Bool.or_eq_true, hinc, SyncConfig.CapturesBeside]
  rw [or_comm (b := _ ∨ _), ← or_and_left, or_assoc, or_comm (a := notIgnored ignored path = true)]

end

/-- **A conflict copy is captured like its original**, for a captured file outside `.git`, exactly when
no entry of the `[sync]` table tells the two apart. -/
theorem captures_copy_iff (config : SyncConfig) {ignored : Text → Bool → Bool}
    {base l r : Manifest} {localDevice : Text} {now : Int} {c : ConflictCopy}
    (hc : c ∈ (merge base l r localDevice (conflictStamp now)).conflicts)
    (hgit : isGitPath c.path = false) (hlike : ignored c.copyPath false = ignored c.path false)
    (hcap : scanCaptures config.normalized ignored c.path = true) :
    scanCaptures config.normalized ignored c.copyPath = true ↔
      c.copyPath ∉ config.normalized.excludePaths ∧
        (c.copyPath ∈ config.normalized.includePaths ∨
          config.normalized.CapturesBeside ignored c.path) := by
  have hcopy := (merge_result base l r localDevice (conflictStamp now)).copyOf c hc
  obtain ⟨n, hn⟩ := hcopy.candidate
  have hplace : c.copyPath = c.name := hcopy.copyPath_eq (hcopy.git.trans hgit)
  rw [hplace, hn] at hlike ⊢
  exact captures_candidate_iff (slash_not_mem_label localDevice c.side)
    (slash_not_mem_conflictStamp now) hgit hlike hcap

/-- A merge of a file that both sides added. -/
def contest (path : Text) : MergeOutcome :=
  merge (testManifest []) (testManifest [(path, testEntry 1 10)])
    (testManifest [(path, testEntry 2 20)]) "dev".toList (conflictStamp 0)

/-- A file in an ordinary directory. -/
theorem captures_copy_iff_plain :
    let config : SyncConfig := { includePaths := ["build".toList] }
    (contest "src/a.rs".toList).conflicts ≠ [] ∧
      ∀ c ∈ (contest "src/a.rs".toList).conflicts,
        (scanCaptures config.normalized (fun _ _ => false) c.copyPath = true ↔
          c.copyPath ∉ config.normalized.excludePaths ∧
            (c.copyPath ∈ config.normalized.includePaths ∨
              config.normalized.CapturesBeside (fun _ _ => false) c.path)) := by
  refine ⟨by decide, fun c hc => captures_copy_iff _ hc ?_ rfl ?_⟩
  · exact (by decide : ∀ c ∈ (contest "src/a.rs".toList).conflicts, isGitPath c.path = false) c hc
  · exact (by decide : ∀ c ∈ (contest "src/a.rs".toList).conflicts,
      scanCaptures (SyncConfig.normalized { includePaths := ["build".toList] }) (fun _ _ => false)
        c.path = true) c hc

/-- **An `include` entry that names a file is not one for its conflict copy**: the scan captures the
file and not the copy. -/
theorem included_file_copy_lost :
    let config : SyncConfig := { includePaths := ["node_modules/keep.js".toList] }
    ∃ c ∈ (contest "node_modules/keep.js".toList).conflicts, isGitPath c.path = false ∧
      scanCaptures config.normalized (fun _ _ => false) c.path = true ∧
      scanCaptures config.normalized (fun _ _ => false) c.copyPath = false := by
  decide

end Pear
