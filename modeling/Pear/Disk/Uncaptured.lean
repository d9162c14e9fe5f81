import Pear.Disk.Materialize
import Pear.Scan

/-!
# What a materialization does to files it did not capture

The apply trusts the diff of two manifests and renames over whatever is on disk, and a conflict copy
is named after manifests alone. So a file the scan left out is lost where the remote adds its path,
or where a copy gets its name. Elsewhere nothing it did not capture is overwritten, deleted or written
through, in any tree and at any point of failure (`uncaptured_stays`), if no link stands where Pear
opens files of its own.
-/

namespace Pear

open Lib (Errno Node Attr Content)

/-- No key has its file there, and it is not in `.pear`. -/
structure Uncaptured (files : FileMap) (l : Loc) : Prop where
  outside : ¬ pearLoc <+: l
  key : ∀ p : Text, files[p]? ≠ none → loc p ≠ l

/-- The places in `.pear` of the conflict copies that stay on this device. -/
def localCopyPlaces (conflicts : List ConflictCopy) : List Loc :=
  (conflicts.filter (·.localOnly)).map fun c => loc c.copyPath

/-- The places in `.pear` at which a materialization opens files. -/
def materializePlaces (tag : Text → Text) (files : FileMap) (out : MergeOutcome) : List Loc :=
  applyPlaces tag (writtenPaths (onDisk files out.conflicts) out.merged.files) ++
    localCopyPlaces out.conflicts

/-- What stands where a materialization writes was captured. -/
structure Unobstructed (tag : Text → Text) (files : FileMap) (out : MergeOutcome) (t : Tree) : Prop where
  /-- What is at a path it writes is captured. -/
  written : ∀ p ∈ writtenPaths (onDisk files out.conflicts) out.merged.files,
    t.content (loc p) ≠ none → ¬ Uncaptured files (loc p)
  /-- Nothing is where a local loser is copied to. -/
  copied : ∀ c ∈ out.conflicts, c.side = .localSide → c.localOnly = false →
    t.content (loc c.copyPath) = none
  /-- No link is where it opens files in `.pear`. -/
  unlinked : Unlinked (materializePlaces tag files out) t

section
variable {source : Text → Option Bytes} {now : Int × Int} {lower tag : Text → Text}
  {encode : Manifest → Bytes} {base localManifest remote prePushBase : Manifest}
  {device stamp : Text} {out : MergeOutcome} {t : Tree}

/-- The paths on disk once the local losers are copied. -/
theorem onDisk_ne_none {p : Text} {files : FileMap} {cs : List ConflictCopy}
    (h : (onDisk files cs)[p]? ≠ none) :
    files[p]? ≠ none ∨ ∃ c ∈ cs, c.side = .localSide ∧ c.localOnly = false ∧ c.copyPath = p := by
  by_contra hno
  obtain ⟨hfile, hcopy⟩ := not_or.mp hno
  refine h ((onDisk_get_of_no_copy cs files fun c hc hl hs heq => ?_).trans (not_not.mp hfile))
  exact hcopy ⟨c, hc, hs, hl, heq⟩

/-- A copy that stays on this device is in the directory of such copies. -/
theorem CopyOf.in_conflicts {b l r : FileMap} {c : ConflictCopy} (h : CopyOf b l r device stamp c)
    (hl : c.localOnly = true) : [pearDir, "conflicts".toList] <+: loc c.copyPath := by
  have hdir : loc localConflictDir = [pearDir, "conflicts".toList] := by decide
  rw [h.place, if_pos hl, loc_join, hdir]
  exact List.prefix_append _ _

/-- That directory is in `.pear`. -/
theorem in_pear_of_conflicts {l : Loc} (h : [pearDir, "conflicts".toList] <+: l) : pearLoc <+: l :=
  List.IsPrefix.trans ⟨["conflicts".toList], rfl⟩ h

/-- **A materialization changes and touches nothing that it did not capture.** -/
theorem spec_materialize_uncaptured (hout : MergeResult base.files localManifest.files remote.files
      device stamp out.merged.files out.conflicts)
    (h : Unobstructed tag localManifest.files out t) :
    Solo source now (fun l _ => ¬ (Uncaptured localManifest.files l ∧ t.content l ≠ none))
      (fun _ _ => True) (materialize lower tag encode localManifest prePushBase out) t := by
  have hown : ∀ {l : Loc}, pearLoc <+: l →
      ¬ (Uncaptured localManifest.files l ∧ t.content l ≠ none) := fun hl hx => hx.1.outside hl
  -- No link is where a copy is made.
  let P : Tree → Prop := fun t' => Unlinked (materializePlaces tag localManifest.files out) t' ∧
    ∀ c ∈ out.conflicts, c.side = .localSide ∨ c.localOnly = true →
      ∀ target, t'.content (loc c.copyPath) ≠ some (.link target)
  have hstart : P t := by
    refine ⟨h.unlinked, fun c hc hcopy target hl => ?_⟩
    cases hlocal : c.localOnly with
    | true =>
      refine h.unlinked (loc c.copyPath) ?_ _ (List.prefix_refl _) target hl
      exact List.mem_append_right _ (List.mem_map_of_mem (List.mem_filter.mpr ⟨hc, hlocal⟩))
    | false =>
      rw [h.copied c hc (hcopy.resolve_right (by simp [hlocal])) hlocal] at hl
      cases hl
  have hmono : ∀ t₁ t₂, NoNewLinks t₁ t₂ → P t₁ → P t₂ := fun t₁ t₂ hlinks hP =>
    ⟨hP.1.mono hlinks, fun c hc hcopy target hl => hP.2 c hc hcopy target (hlinks _ target hl)⟩
  have hstable : Stable (fun _ => True) P := fun t₁ t₂ hcalm => hmono t₁ t₂ hcalm.noNewLinks
  unfold materialize
  refine Lib.wp_bind (Lib.wp_mono (spec_forM hstable (fun c hc t₁ hP => ?_) hstart)
    fun _ t₁ hP => ?_)
  · refine Lib.wp_mono (Spec.keep (spec_preserve (fun hcopy => hP.2 c hc hcopy) fun hcopy _ => ?_)
      hstable (fun t₁ t₂ _ hlinks => hmono t₁ t₂ hlinks) hP) fun _ _ hpost => hpost.2
    cases hlocal : c.localOnly with
    | true => exact hown (in_pear_of_conflicts ((hout.copyOf c hc).in_conflicts hlocal))
    | false => exact fun hx => hx.2 (h.copied c hc (hcopy.resolve_right (by simp [hlocal])) hlocal)
  · dsimp only
    split
    · exact spec_done stable_true trivial
    refine Lib.wp_bind (Lib.wp_mono (spec_applyCommit ?_ fun l hl =>
      hP.1 l (List.mem_append_left _ hl)) fun _ _ _ => spec_done stable_true trivial)
    refine ⟨fun p hp hx => ?_, fun p hp _ _ _ _ hx => h.written p hp hx.2 hx.1, fun l hl _ => ?_,
      fun _ => hown ⟨["manifest.tmp".toList], rfl⟩, fun _ => hown ⟨["manifest.json".toList], rfl⟩⟩
    · rcases onDisk_ne_none (mem_deleted.mp hp).1 with hkey | ⟨c, hc, hside, hlocal, rfl⟩
      · exact hx.1.key p hkey rfl
      · exact hx.2 (h.copied c hc hside hlocal)
    · exact hown (List.IsPrefix.trans ⟨["staging".toList], rfl⟩ hl)

/-- **What a converge did not capture stays as it is**, and no call is about to change it, wherever
the materialization stops. -/
theorem uncaptured_stays {s : Tree × DiskProg Materialized}
    {ticks : List (Lib.Tick (Option Nat) Empty)} {l : Loc}
    (h : Unobstructed tag localManifest.files (merge base localManifest remote device stamp) t)
    (run : Lib.Run (disk source now Empty nofun).step (fun _ _ => True)
      (t, materialize lower tag encode localManifest prePushBase
        (merge base localManifest remote device stamp)) ticks s)
    (hl : Uncaptured localManifest.files l) (hthere : t.content l ≠ none) :
    s.1.content l = t.content l ∧
      ∀ (op : DiskOp) (k : op.Ret → DiskProg Materialized), s.2 = .call op k → l ∉ op.touches s.1 := by
  have hspec : Solo source now (fun l _ => ¬ (Uncaptured localManifest.files l ∧ t.content l ≠ none))
      (fun _ _ => True) (materialize lower tag encode localManifest prePushBase
        (merge base localManifest remote device stamp)) t :=
    spec_materialize_uncaptured (merge_result base localManifest remote device stamp) h
  have hrun := Lib.admissible_of_isEmpty (C := diskContract (fun _ => True) (fun _ _ => True)
    fun l _ => ¬ (Uncaptured localManifest.files l ∧ t.content l ≠ none)) (fun _ _ => trivial) run
  constructor
  · refine Lib.wp_always (I := fun t' => t'.content l = t.content l) (fun _ _ hr h => ?_)
      (fun _ _ _ hg h => ?_) hrun hspec rfl
    · exact (hr.content l trivial).trans h
    · rcases hg.changes l with hsame | hchange
      · exact hsame.trans h
      · exact absurd ⟨hl, hthere⟩ hchange
  · rintro op k hcall hx
    have hnext : Solo source now _ (fun _ _ => True) s.2 s.1 := Lib.wp_run hrun hspec
    rw [hcall] at hnext
    obtain ⟨-, hno⟩ := (hnext s.1 ⟨fun _ _ => rfl, fun _ _ => Iff.rfl⟩ trivial _ .exec).1.touches l hx
    exact hno ⟨hl, hthere⟩

end

/-! ## Runs -/

/-- A scan for which one file is ignored. -/
def ignoringOne (path : Text) : ScanRules where
  parse _ := none
  ignored _ q _ := q = path

/-- An attempt in which nothing is uploaded. -/
def idleRound : Round where
  stamp := []
  scannedAt := 0
  stagedAt := .ofEntry emptyFile
  upload _ := []
  present _ := false
  data _ := none

/-- What a scan captures of one ignored file. -/
def capturedBeside (path : Text) (f : DiskFile) : Manifest :=
  captureTree (ignoringOne path) idleRound (manifestOf ∅) (.ofList [(path, f)] compare)

/-- A file with one byte. -/
def oneByte : DiskFile where
  bytes := [1]
  mode := 0o644
  mtime := .ofEntry emptyFile

/-- A prepared target with that file. -/
def treeWithByte (l : Loc) : Tree :=
  (preparedTree.put l (.file oneByte.bytes ⟨oneByte.mode, (0, 0)⟩)).getD preparedTree

/-- A remote that adds an empty file. -/
def remoteAdds (path : Text) : Manifest := manifestOf (.ofList [(path, emptyFile)] compare)

/-- An ignored file stays where the remote adds another. -/
theorem uncaptured_stays_beside :
    let localManifest := capturedBeside "u".toList oneByte
    let out := merge (manifestOf ∅) localManifest (remoteAdds "g".toList) "d".toList "s".toList
    ∃ (t' : Tree) (report : Materialized),
      Lib.Run (disk (fun _ => none) (7, 0) Empty nofun).step (fun _ _ => True)
        (treeWithByte ["u".toList], materialize id id (fun _ => []) localManifest (manifestOf ∅) out)
        (.replicate 16 .go) (t', .done report) ∧
      t'.content ["u".toList] = some (.file [1]) := by
  intro localManifest out
  let t := treeWithByte ["u".toList]
  have hrun : (Lib.replay (disk (fun _ => none) (7, 0) Empty nofun).step
      (t, materialize id id (fun _ => []) localManifest (manifestOf ∅) out) (.replicate 16 .go)).map
        (ended fun _ => true) = some true := by
    decide +kernel
  obtain ⟨t', report, run, -⟩ := exists_ended hrun
  have hconflicts : out.conflicts = [] := by decide +kernel
  have hkeys : ∀ p ∈ localManifest.files.keys, loc p ≠ ["u".toList] := by decide +kernel
  have hwritten : ∀ p ∈ writtenPaths (onDisk localManifest.files out.conflicts) out.merged.files,
      t.content (loc p) = none := by
    decide +kernel
  have hmanifest : t.content manifestTmp = none := by decide +kernel
  have hstaged : ∀ p ∈ writtenPaths (onDisk localManifest.files out.conflicts) out.merged.files,
      t.content (stagePath id p) = none := by
    decide +kernel
  have hunlinked : Unlinked (materializePlaces id localManifest.files out) t := by
    have hplaces : localCopyPlaces out.conflicts = [] := by rw [hconflicts]; rfl
    rw [materializePlaces, hplaces, List.append_nil]
    refine unlinked_applyPlaces (by decide +kernel) (by decide +kernel) (fun target => ?_)
      fun p hp target => ?_
    · rw [hmanifest]
      nofun
    · rw [hstaged p hp]
      nofun
  have hbyte : t.content ["u".toList] = some (.file [1]) := by decide +kernel
  have hthere : t.content ["u".toList] ≠ none := by
    rw [hbyte]
    nofun
  have hopen : Unobstructed id localManifest.files out t := by
    refine ⟨fun p hp hne => absurd (hwritten p hp) hne, ?_, hunlinked⟩
    rw [hconflicts]
    nofun
  exact ⟨t', report, run, (uncaptured_stays hopen run
    ⟨by decide, fun p hp => hkeys p (Lib.mem_keys_iff.mpr hp)⟩ hthere).1.trans hbyte⟩

/-- **An ignored file is overwritten where the remote adds its path.** -/
theorem ignored_file_overwritten :
    let localManifest := capturedBeside "f".toList oneByte
    let out := merge (manifestOf ∅) localManifest (remoteAdds "f".toList) "d".toList "s".toList
    Uncaptured localManifest.files ["f".toList] ∧
    (treeWithByte ["f".toList]).content ["f".toList] = some (.file [1]) ∧
    ∃ (t' : Tree) (report : Materialized),
      Lib.Run (disk (fun _ => none) (7, 0) Empty nofun).step (fun _ _ => True)
        (treeWithByte ["f".toList], materialize id id (fun _ => []) localManifest (manifestOf ∅) out)
        (.replicate 16 .go) (t', .done report) ∧
      t'.content ["f".toList] = some (.file []) := by
  intro localManifest out
  have hkeys : ∀ p ∈ localManifest.files.keys, loc p ≠ ["f".toList] := by decide +kernel
  have hrun : (Lib.replay (disk (fun _ => none) (7, 0) Empty nofun).step
      (treeWithByte ["f".toList], materialize id id (fun _ => []) localManifest (manifestOf ∅) out)
      (.replicate 16 .go)).map
        (ended fun t' => decide (t'.content ["f".toList] = some (.file []))) = some true := by
    decide +kernel
  obtain ⟨t', report, run, hcheck⟩ := exists_ended hrun
  exact ⟨⟨by decide, fun p hp => hkeys p (Lib.mem_keys_iff.mpr hp)⟩, by decide +kernel, t', report, run,
    of_decide_eq_true hcheck⟩

end Pear
