import Pear.Disk.Batch
import Pear.Manifest.Aliases

/-!
# A successful apply

When `apply_commit` returns `Ok`, the old tree has become the new one (`TurnedInto`): the files of
`new` are there, those whose entry differs from `old`'s with the bytes and metadata of theirs, the
rest as they were, and nothing else but what is no file of `old`. The four phases are one batch, so
this holds for any change of files to directories and back that an apply gets through. It works in
the worktree first: once a node of `.git` has changed, the worktree is final.

What is below `.pear/staging` is Pear's own and is removed, and a file's nanoseconds are clamped.
-/

namespace Pear

open Lib (Errno Node Attr Content)

/-! ## Places of keys -/

/-- `.git`. -/
def gitLoc : Loc := [".git".toList]

section
variable {p q : Text} {l : Loc}

/-- A valid path without dots is the place it names. -/
theorem ValidPath.loc_eq_splitOn (h : ValidPath p) (hdot : ¬ HasDot p) : loc p = p.splitOn '/' := by
  rw [← h.splitOn_undot, undot_of_not_hasDot hdot]

/-- A path is `.git`'s if its place is. -/
theorem ValidPath.isGitPath_iff (h : ValidPath p) (hdot : ¬ HasDot p) :
    isGitPath p = true ↔ gitLoc <+: loc p := by
  have hgit : gitLoc = ".git".toList.splitOn '/' := by decide
  rw [h.loc_eq_splitOn hdot, hgit, splitOn_prefix_iff, mem_ancestors]
  simp only [isGitPath, Bool.or_eq_true, decide_eq_true_eq, List.isPrefixOf_iff_prefix]
  refine or_congr eq_comm ⟨?_, ?_⟩
  · rintro ⟨r, rfl⟩
    exact ⟨r, rfl⟩
  · rintro ⟨r, rfl⟩
    exact ⟨r, rfl⟩

/-- What is above a place of `.git`, the root apart, is of `.git` too. -/
theorem gitLoc_prefix_above {d : Loc} (hd : d <+: l) (hne : d ≠ []) :
    gitLoc <+: d ↔ gitLoc <+: l := by
  refine ⟨fun h => h.trans hd, fun h => ?_⟩
  obtain ⟨c, d, rfl⟩ := List.exists_cons_of_ne_nil hne
  obtain ⟨r, rfl⟩ := hd
  obtain ⟨rfl, -⟩ := List.cons_prefix_cons.mp h
  exact ⟨d, rfl⟩

end

/-- Every key is valid and has no dot. -/
def Dotless (old new : FileMap) : Prop :=
  ∀ p : Text, old[p]? ≠ none ∨ new[p]? ≠ none → ValidPath p ∧ ¬ HasDot p

section
variable {old new : FileMap} {p q : Text}

/-- Such keys name different places. -/
theorem Dotless.loc_ne (h : Dotless old new) (hp : old[p]? ≠ none ∨ new[p]? ≠ none)
    (hq : old[q]? ≠ none ∨ new[q]? ≠ none) (hne : p ≠ q) : loc p ≠ loc q := by
  rw [(h p hp).1.loc_eq_splitOn (h p hp).2, (h q hq).1.loc_eq_splitOn (h q hq).2]
  exact fun heq => hne (eq_of_splitOn_eq heq)

theorem nodup_deleted : (diff old new).deleted.Nodup := (Lib.nodup_keys old).filter _

end

/-! ## Phases -/

/-- The deletes and writes of the paths of one part of the tree. -/
def applyPart (tag : Text → Text) (old new : FileMap) (part : Text → Bool) : DiskProg PUnit := do
  forM ((diff old new).deleted.filter part) deleteFile
  forM ((writtenPaths old new).filter part) (writeEntry tag new)

/-- An apply up to its last change of the worktree. -/
def applyWorktree (lower tag : Text → Text) (old new : Manifest) : DiskProg PUnit := do
  checkManifests lower old new
  prepareStaging
  applyPart tag old.files new.files (!isGitPath ·)

/-- The rest of it. -/
def applyGit (tag : Text → Text) (encode : Manifest → Bytes) (old new commit : Manifest) :
    DiskProg ApplyReport := do
  applyPart tag old.files new.files (isGitPath ·)
  flushDiff old.files new.files
  writeFileAtomic manifestTmp manifestLoc (encode commit)
  let writes := writtenPaths old.files new.files
  let deletes := (diff old.files new.files).deleted
  return {
    written := writes.filter (!isGitPath ·) ++ writes.filter (isGitPath ·)
    deleted := deletes.filter (!isGitPath ·) ++ deletes.filter (isGitPath ·) }

section
variable {source : Text → Option Bytes} {now : Int × Int} {R : Loc → Prop} {t t' : Tree} {x : Loc}
  {lower tag : Text → Text} {encode : Manifest → Bytes} {old new commit : Manifest}

/-- **An apply is the worktree's part, then the rest.** -/
theorem applyCommit_eq : applyCommit lower tag encode old new commit =
    applyWorktree lower tag old new >>= fun _ => applyGit tag encode old new commit := by
  simp only [applyWorktree, applyGit, applyPart, applyCommit, applyDiff, Lib.Prog.bind_assoc]
  rfl

/-- Only valid manifests get past the check. -/
theorem within_checkManifests :
    Within source now R (fun _ t' => t' = t ∧ Valid old.files ∧ Valid new.files)
      (checkManifests lower old new) t := by
  unfold checkManifests
  cases hold : validate old with
  | error e => trivial
  | ok _ =>
    cases hnew : validate new with
    | error e => trivial
    | ok _ =>
      cases collision lower [] new.files.keys with
      | some pair => trivial
      | none => exact within_done ⟨rfl, validate_eq_ok_iff.mp hold, validate_eq_ok_iff.mp hnew⟩

/-- The deletes and writes of a part are a batch. -/
theorem within_applyPart {part : Text → Bool} {old new : FileMap} (hkeys : Dotless old new)
    (hR : ∀ p : Text, (old[p]? ≠ none ∨ new[p]? ≠ none) → part p = true → PathIn R p)
    (hpear : ∀ x, pearLoc <+: x → R x) (hplaces : Unlinked (applyPlaces tag (writtenPaths old new)) t) :
    Within source now R
      (fun _ => Batch source new ((diff old new).deleted.filter part) ((writtenPaths old new).filter part) t)
      (applyPart tag old new part) t := by
  have hdeletes : ∀ p ∈ (diff old new).deleted.filter part,
      (old[p]? ≠ none ∨ new[p]? ≠ none) ∧ part p = true ∧ new[p]? = none := fun p hp =>
    have ⟨hmem, hpart⟩ := List.mem_filter.mp hp
    ⟨.inl (mem_deleted.mp hmem).1, hpart, (mem_deleted.mp hmem).2⟩
  have hwrites : ∀ p ∈ (writtenPaths old new).filter part,
      (old[p]? ≠ none ∨ new[p]? ≠ none) ∧ part p = true ∧ new[p]? ≠ none := fun p hp =>
    have ⟨hmem, hpart⟩ := List.mem_filter.mp hp
    ⟨.inr (mem_writes.mp hmem).1, hpart, (mem_writes.mp hmem).1⟩
  have hapart : ∀ ps : List Text, ps.Nodup → (∀ p ∈ ps, old[p]? ≠ none ∨ new[p]? ≠ none) →
      ps.Pairwise fun p q => loc p ≠ loc q := fun ps hnodup hps =>
    hnodup.imp_of_mem fun hp hq hne => hkeys.loc_ne (hps _ hp) (hps _ hq) hne
  unfold applyPart
  refine Lib.wp_bind (Lib.wp_mono
    (Q := fun _ => Batch source new ((diff old new).deleted.filter part) [] t)
    (within_deletes (fun p hp => (hkeys p (hdeletes p hp).1).1.outside)
    (fun p hp => hR p (hdeletes p hp).1 (hdeletes p hp).2.1)
    (hapart _ (nodup_deleted.filter part) fun p hp => (hdeletes p hp).1)) fun _ t' hfirst => ?_)
  refine Lib.wp_mono (within_writes (fun p hp => (hwrites p hp).2.2)
    (fun p hp => (hkeys p (hwrites p hp).1).1.outside)
    (fun p hp => hR p (hwrites p hp).1 (hwrites p hp).2.1)
    (fun p _ => hpear _ (pearLoc_prefix_stagePath tag p))
    (hapart _ ((nodup_writes old new).filter part) fun p hp => (hwrites p hp).1)
    fun p hp => (hplaces.mono hfirst.links) _ ?_) fun _ t'' hrest => ?_
  · exact List.mem_cons_of_mem _ (List.mem_cons_of_mem _
      (List.mem_map_of_mem (List.mem_of_mem_filter hp)))
  · have := hfirst.trans hrest (fun p hp => ?_) fun p hp q hq => ?_
    · rwa [List.append_nil, List.nil_append] at this
    · rw [List.append_nil] at hp
      exact (hkeys p (hdeletes p hp).1).1.outside
    · rw [List.append_nil] at hp
      rw [List.nil_append] at hq
      refine hkeys.loc_ne (hdeletes p hp).1 (hwrites q hq).1 ?_
      rintro rfl
      exact (hwrites p hq).2.2 (hdeletes p hp).2.2

/-- **The worktree's part of an apply changes nothing in `.git`.** -/
theorem within_applyWorktree (hdots : ∀ p : Text, old.files[p]? ≠ none ∨ new.files[p]? ≠ none → ¬ HasDot p)
    (hplaces : Unlinked (applyPlaces tag (writtenPaths old.files new.files)) t) :
    Within source now (fun x => ¬ gitLoc <+: x)
      (fun _ t' => Dotless old.files new.files ∧
        Batch source new.files ((diff old.files new.files).deleted.filter (!isGitPath ·))
          ((writtenPaths old.files new.files).filter (!isGitPath ·)) t t')
      (applyWorktree lower tag old new) t := by
  have hpear : ∀ x, pearLoc <+: x → ¬ gitLoc <+: x := by
    rintro _ ⟨r, rfl⟩ hgit
    exact absurd (List.cons_prefix_cons.mp hgit).1 (by decide)
  unfold applyWorktree
  refine Lib.wp_bind (Lib.wp_mono within_checkManifests fun _ t' hvalid => ?_)
  obtain ⟨rfl, hold, hnew⟩ := hvalid
  have hkeys : Dotless old.files new.files := fun p hp =>
    ⟨hp.elim (hold.path p) (hnew.path p), hdots p hp⟩
  refine Lib.wp_bind (Lib.wp_mono (Q := fun _ => Batch source new.files [] [] t')
    (within_prepareStaging (hplaces _ List.mem_cons_self) hpear) fun _ t₁ hprepared => ?_)
  refine Lib.wp_mono (within_applyPart hkeys (fun p hp hpart d hd hne hgit => ?_) hpear
    (hplaces.mono hprepared.links)) fun _ t₂ hbatch => ⟨hkeys, ?_⟩
  · rw [gitLoc_prefix_above hd hne, ← (hkeys p hp).1.isGitPath_iff (hkeys p hp).2] at hgit
    simp [hgit] at hpart
  · exact hprepared.trans hbatch nofun nofun

/-- **The rest changes nothing in the worktree.** -/
theorem within_applyGit (hkeys : Dotless old.files new.files)
    (hplaces : Unlinked (applyPlaces tag (writtenPaths old.files new.files)) t) :
    Within source now (fun x => gitLoc <+: x ∨ pearLoc <+: x)
      (fun _ t' => ∃ t₁ attr,
        Batch source new.files ((diff old.files new.files).deleted.filter (isGitPath ·))
          ((writtenPaths old.files new.files).filter (isGitPath ·)) t t₁ ∧
        Wrote (fun x => x = manifestTmp ∨ x = manifestLoc) manifestLoc (encode commit) attr t₁ t')
      (applyGit tag encode old new commit) t := by
  have htmp : manifestTmp ∈ applyPlaces tag (writtenPaths old.files new.files) :=
    List.mem_cons_of_mem _ List.mem_cons_self
  unfold applyGit
  refine Lib.wp_bind (Lib.wp_mono (within_applyPart hkeys (fun p hp hpart d hd hne => ?_)
    (fun x => .inr) hplaces) fun _ t₁ hbatch => ?_)
  · rw [gitLoc_prefix_above hd hne, ← (hkeys p hp).1.isGitPath_iff (hkeys p hp).2]
    exact .inl hpart
  refine Lib.wp_bind (Lib.wp_mono within_flushDiff fun _ t₂ hsame => ?_)
  have hbatch := hbatch.same hsame
  have hplain : t₂.Plain manifestTmp := (hplaces.mono hbatch.links) _ htmp
  have hpear : t₂.Plain pearLoc := fun d hd => hplain d (hd.trans ⟨["manifest.tmp".toList], rfl⟩)
  refine Lib.wp_bind (Lib.wp_mono (within_writeFileAtomic hplain (real_concat hpear _) (by decide)
    (.inr ⟨["manifest.tmp".toList], rfl⟩) (.inr ⟨["manifest.json".toList], rfl⟩))
    fun _ t₃ hwrote => ?_)
  obtain ⟨attr, hwrote⟩ := hwrote
  exact within_done ⟨t₂, attr, hbatch, hwrote⟩

end

/-! ## The result -/

/-- Pear's own places: the staging directory and what is in it, the manifest and its temporary. -/
def PearOwn (l : Loc) : Prop := stagingDir <+: l ∨ l = manifestLoc ∨ l = manifestTmp

/-- There is a regular file for every key. -/
def HoldsFiles (files : FileMap) (t : Tree) : Prop :=
  ∀ p : Text, files[p]? ≠ none → ∃ data attr, t.nodes[loc p]? = some (.file data attr)

/-- What stands at a location is neither a directory nor a file of the manifest nor Pear's own. -/
structure Unrelated (files : FileMap) (t : Tree) (l : Loc) : Prop where
  there : t.leaf l ≠ none
  own : ¬ PearOwn l
  key : ∀ p : Text, files[p]? ≠ none → l ≠ loc p

/-- The tree of one manifest has become that of another, with this manifest at the pointer. -/
structure TurnedInto (source : Text → Option Bytes) (encode : Manifest → Bytes)
    (old new commit : Manifest) (t t' : Tree) : Prop where
  /-- The files of `new` are there. -/
  holds : HoldsFiles new.files t'
  /-- Those with another entry than in `old` have its bytes, mode and time. -/
  written : ∀ (p : Text) (entry : FileEntry), new.files[p]? = some entry →
    old.files[p]? ≠ some entry → ∃ bytes, assemble source entry.chunks = some bytes ∧
      t'.nodes[loc p]? = some (.file bytes ⟨entry.mode &&& 0o777, entry.mtime⟩)
  /-- The others are what they were. -/
  kept : ∀ (p : Text) (entry : FileEntry), new.files[p]? = some entry →
    old.files[p]? = some entry → t'.nodes[loc p]? = t.nodes[loc p]?
  /-- So is everything unrelated. -/
  unrelated : ∀ l, Unrelated old.files t l → t'.nodes[l]? = t.nodes[l]?
  /-- There is nothing else. -/
  only : ∀ l, t'.leaf l ≠ none →
    PearOwn l ∨ (∃ p : Text, new.files[p]? ≠ none ∧ l = loc p) ∨ Unrelated old.files t l
  pointer : ∃ attr, t'.nodes[manifestLoc]? = some (.file (encode commit) attr)

section
variable {source : Text → Option Bytes} {now : Int × Int} {t t₁ t' : Tree} {lower tag : Text → Text}
  {encode : Manifest → Bytes} {old new commit : Manifest}

/-- A key's place is not Pear's own. -/
theorem Outside.not_pearOwn {l : Loc} (h : Outside l) : ¬ PearOwn l := by
  rintro (hstaged | rfl | rfl)
  · exact h.not_staged hstaged
  · exact h.2 ⟨["manifest.json".toList], rfl⟩
  · exact h.2 ⟨["manifest.tmp".toList], rfl⟩

/-- **The batch of a diff turns the old tree into the new one**, once the pointer is swapped. -/
theorem Batch.turnedInto {ds ws : List Text} {attr : Attr} (hkeys : Dotless old.files new.files)
    (hholds : HoldsFiles old.files t)
    (hfree : ∀ (l : Loc) (p : Text), Unrelated old.files t l → new.files[p]? ≠ none → l ≠ loc p)
    (hds : ∀ p, p ∈ ds ↔ old.files[p]? ≠ none ∧ new.files[p]? = none)
    (hws : ∀ p, p ∈ ws ↔ new.files[p]? ≠ none ∧ old.files[p]? ≠ new.files[p]?)
    (h : Batch source new.files ds ws t t₁)
    (hpointer : Wrote (fun x => x = manifestTmp ∨ x = manifestLoc) manifestLoc (encode commit) attr t₁
      t') : TurnedInto source encode old new commit t t' := by
  have hafter : ∀ l, ¬ PearOwn l → t'.leaf l = t₁.leaf l := fun l hl =>
    hpointer.kept l fun hl' => hl (.inr hl'.symm)
  have hown : ∀ p, old.files[p]? ≠ none ∨ new.files[p]? ≠ none → ¬ PearOwn (loc p) :=
    fun p hp => (hkeys p hp).1.outside.not_pearOwn
  have hchanged : ∀ q ∈ ds ++ ws, old.files[q]? ≠ none ∨ new.files[q]? ≠ none := fun q hq =>
    (List.mem_append.mp hq).imp (fun hq => ((hds q).mp hq).1) fun hq => ((hws q).mp hq).1
  have hwritten : ∀ (p : Text) (entry : FileEntry), new.files[p]? = some entry →
      old.files[p]? ≠ some entry → ∃ bytes, assemble source entry.chunks = some bytes ∧
        t'.nodes[loc p]? = some (.file bytes ⟨entry.mode &&& 0o777, entry.mtime⟩) := by
    intro p entry hnew hold
    have hp : new.files[p]? ≠ none := by simp [hnew]
    obtain ⟨entry', bytes, hentry, hbytes, hleaf⟩ := h.written p ((hws p).mpr ⟨hp, hnew ▸ hold⟩)
    obtain rfl : entry = entry' := Option.some.inj (hnew.symm.trans hentry)
    rw [← hafter _ (hown p (.inr hp))] at hleaf
    exact ⟨bytes, hbytes, (Lib.FileTree.leaf_eq_some_iff.mp hleaf).1⟩
  have hkept : ∀ (p : Text) (entry : FileEntry), new.files[p]? = some entry →
      old.files[p]? = some entry → t'.nodes[loc p]? = t.nodes[loc p]? := by
    intro p entry hnew hold
    have hp : old.files[p]? ≠ none := by simp [hold]
    obtain ⟨data, attr, hfile⟩ := hholds p hp
    have hleaf : t.leaf (loc p) = some (.file data attr) :=
      Lib.FileTree.leaf_eq_some_iff.mpr ⟨hfile, nofun⟩
    refine Lib.FileTree.nodes_of_leaf ((hafter _ (hown p (.inl hp))).trans (h.kept _ (fun q hq => ?_) ?_))
      (by simp [hleaf])
    · -- No path of the diff is this one.
      refine hkeys.loc_ne (.inl hp) (hchanged q hq) ?_
      rintro rfl
      rcases List.mem_append.mp hq with hq | hq
      · simpa [hnew] using ((hds p).mp hq).2
      · exact ((hws p).mp hq).2 (hold.trans hnew.symm)
    · exact (hkeys p (.inl hp)).1.outside.not_staged
  refine ⟨fun p hp => ?_, hwritten, hkept, fun l hl => ?_, fun l hl => ?_,
    attr, (Lib.FileTree.leaf_eq_some_iff.mp hpointer.leaf).1⟩
  · obtain ⟨entry, hnew⟩ := Option.ne_none_iff_exists'.mp hp
    by_cases hold : old.files[p]? = some entry
    · rw [hkept p entry hnew hold]
      exact hholds p (by simp [hold])
    · obtain ⟨bytes, -, hfile⟩ := hwritten p entry hnew hold
      exact ⟨_, _, hfile⟩
  · refine Lib.FileTree.nodes_of_leaf ((hafter l hl.own).trans (h.kept l (fun q hq => ?_) fun hstaged =>
      hl.own (.inl hstaged))) hl.there
    rcases List.mem_append.mp hq with hq | hq
    · exact hl.key q ((hds q).mp hq).1
    · exact hfree l q hl ((hws q).mp hq).1
  · by_cases hl' : PearOwn l
    · exact .inl hl'
    refine .inr ?_
    rw [hafter l hl'] at hl
    by_cases hchange : ∃ q ∈ ds ++ ws, l = loc q
    · obtain ⟨q, hq, rfl⟩ := hchange
      rcases List.mem_append.mp hq with hq | hq
      · exact absurd (h.deleted q hq) hl
      · exact .inl ⟨q, ((hws q).mp hq).1, rfl⟩
    · have hsame := h.kept l (fun q hq heq => hchange ⟨q, hq, heq⟩) fun hstaged => hl' (.inl hstaged)
      by_cases hold : ∃ p : Text, old.files[p]? ≠ none ∧ l = loc p
      · obtain ⟨p, hp, rfl⟩ := hold
        refine .inl ⟨p, fun hnew => hchange ⟨p, List.mem_append_left _ ((hds p).mpr ⟨hp, hnew⟩), rfl⟩, rfl⟩
      · exact .inr ⟨hsame ▸ hl, hl', fun p hp heq => hold ⟨p, hp, heq⟩⟩

/-- **A successful apply turns the old tree into the new one**, the worktree before `.git`. What is
above or below a key of `new` makes it fail, so only what is at one must be excluded. -/
theorem applyCommit_turns {ticks : List (Lib.Tick (Option Nat) Empty)} {report : ApplyReport}
    (hdots : ∀ p : Text, old.files[p]? ≠ none ∨ new.files[p]? ≠ none → ¬ HasDot p)
    (hholds : HoldsFiles old.files t)
    (hfree : ∀ (l : Loc) (p : Text), Unrelated old.files t l → new.files[p]? ≠ none → l ≠ loc p)
    (hlinks : Unlinked (applyPlaces tag (writtenPaths old.files new.files)) t)
    (run : Lib.Run (disk source now Empty nofun).step (fun _ _ => True)
      (t, applyCommit lower tag encode old new commit) ticks (t', .done report)) :
    TurnedInto source encode old new commit t t' ∧
    ∀ (s : Tree × DiskProg ApplyReport) (ticks₁ ticks₂ : List (Lib.Tick (Option Nat) Empty)),
      Lib.Run (disk source now Empty nofun).step (fun _ _ => True)
        (t, applyCommit lower tag encode old new commit) ticks₁ s →
      Lib.Run (disk source now Empty nofun).step (fun _ _ => True) s ticks₂ (t', .done report) →
      (∃ l, gitLoc <+: l ∧ s.1.nodes[l]? ≠ t.nodes[l]?) →
      ∀ l, ¬ gitLoc <+: l → ¬ pearLoc <+: l → t'.nodes[l]? = s.1.nodes[l]? := by
  have hworktree : Within source now _ _ (applyWorktree lower tag old new) t :=
    within_applyWorktree hdots hlinks
  -- What holds when the worktree's part is done, and what the rest does from there.
  have hmid : ∀ {ticks₁ : List (Lib.Tick (Option Nat) Empty)} {t₁ : Tree} {u : PUnit},
      Lib.Run (disk source now Empty nofun).step (fun _ _ => True) (t, applyWorktree lower tag old new)
        ticks₁ (t₁, .done u) → _ :=
    fun run => Lib.wp_done (Lib.admissible_of_isEmpty (fun _ _ => trivial) run) hworktree
  constructor
  · rcases Lib.run_bind run (congrArg (Prod.mk t) applyCommit_eq) with
      ⟨p', hp, hne, -⟩ | ⟨ticks₁, ticks₂, t₁, _, -, run₁, run₂⟩
    · cases p' with
      | done a => exact absurd rfl (hne a)
      | fail | call => cases hp
    · obtain ⟨hkeys, hfirst⟩ := hmid run₁
      obtain ⟨t₂, attr, hrest, hpointer⟩ := Lib.wp_done
        (Lib.admissible_of_isEmpty (fun _ _ => trivial) run₂)
        (within_applyGit hkeys (hlinks.mono hfirst.links))
      have hmem : ∀ (ps : List Text) (p : Text),
          p ∈ ps.filter (!isGitPath ·) ++ ps.filter (isGitPath ·) ↔ p ∈ ps := by
        intro ps p
        cases hgit : isGitPath p <;> simp [hgit]
      have hkey : ∀ part p, p ∈ (diff old.files new.files).deleted.filter part ++
          (writtenPaths old.files new.files).filter part →
          (old.files[p]? ≠ none ∨ new.files[p]? ≠ none) ∧ part p = true := by
        intro part p hp
        rcases List.mem_append.mp hp with hp | hp
        · exact ⟨.inl (mem_deleted.mp (List.mem_filter.mp hp).1).1, (List.mem_filter.mp hp).2⟩
        · exact ⟨.inr (mem_writes.mp (List.mem_filter.mp hp).1).1, (List.mem_filter.mp hp).2⟩
      refine Batch.turnedInto hkeys hholds hfree (fun p => (hmem _ p).trans mem_deleted)
        (fun p => (hmem _ p).trans mem_writes) (hfirst.trans hrest (fun p hp => ?_) fun p hp q hq => ?_)
        hpointer
      · exact (hkeys p (hkey _ p hp).1).1.outside
      · obtain ⟨hp, hgit⟩ := hkey _ p hp
        obtain ⟨hq, hgit'⟩ := hkey _ q hq
        refine hkeys.loc_ne hp hq ?_
        rintro rfl
        simp [hgit'] at hgit
  · rintro s ticks₁ ticks₂ run₁ run₂ ⟨l, hl, hchanged⟩ x hgit hpear
    rcases Lib.run_bind run₁ (congrArg (Prod.mk t) applyCommit_eq) with
      ⟨p', -, -, run⟩ | ⟨_, _, t₁, _, -, run, run'⟩
    · -- The worktree's part is not done: nothing of `.git` can have changed.
      refine absurd ?_ hchanged
      exact Lib.wp_always (I := fun w => w.nodes[l]? = t.nodes[l]?) (fun _ _ hr h => hr ▸ h)
        (fun _ _ _ hg h => (hg l (not_not_intro hl)).trans h)
        (Lib.admissible_of_isEmpty (fun _ _ => trivial) run) hworktree rfl
    · obtain ⟨hkeys, hfirst⟩ := hmid run
      have hspec : Within source now _ _ (applyGit tag encode old new commit) t₁ :=
        within_applyGit hkeys (hlinks.mono hfirst.links)
      have hrest : Within source now _ _ s.2 s.1 :=
        Lib.wp_run (Lib.admissible_of_isEmpty (fun _ _ => trivial) run') hspec
      exact Lib.wp_always (I := fun w => w.nodes[x]? = s.1.nodes[x]?) (fun _ _ hr h => hr ▸ h)
        (fun _ _ _ hg h => (hg x (not_or.mpr ⟨hgit, hpear⟩)).trans h)
        (Lib.admissible_of_isEmpty (fun _ _ => trivial) run₂) hrest rfl

end

/-! ## Runs -/

/-- A file, a directory and a repository. -/
def oldShape : Manifest := emptyFilesAt ["a".toList, "d/f".toList, ".git/HEAD".toList]

/-- The same the other way around: a directory, a file and a gitfile. -/
def newShape : Manifest := emptyFilesAt ["a/b".toList, "d".toList, ".git".toList]

/-- **A file becomes a directory, a directory a file, and a repository a gitfile**, beside a file of
which neither manifest knows. -/
theorem applyCommit_turns_shape :
    let t := treeWith [["a".toList], ["d".toList, "f".toList], [".git".toList, "HEAD".toList],
      ["u".toList]]
    ∃ (t' : Tree) (report : ApplyReport),
      Lib.Run (disk (fun _ => none) (7, 0) Empty nofun).step (fun _ _ => True)
        (t, applyCommit id id (fun _ => []) oldShape newShape newShape) (.replicate 39 .go)
        (t', .done report) ∧
      TurnedInto (fun _ => none) (fun _ => []) oldShape newShape newShape t t' := by
  intro t
  have hrun : (Lib.replay (disk (fun _ => none) (7, 0) Empty nofun).step
      (t, applyCommit id id (fun _ => []) oldShape newShape newShape) (.replicate 39 .go)).map
        (ended fun _ => true) = some true := by
    decide +kernel
  obtain ⟨t', report, run, -⟩ := exists_ended hrun
  have hkeys : ∀ p : Text, oldShape.files[p]? ≠ none ∨ newShape.files[p]? ≠ none →
      p ∈ oldShape.files.keys ++ newShape.files.keys :=
    fun p hp => List.mem_append.mpr (hp.imp Lib.mem_keys_iff.mpr Lib.mem_keys_iff.mpr)
  have hdots : ∀ p ∈ oldShape.files.keys ++ newShape.files.keys, ¬ HasDot p := by decide +kernel
  have hfiles : ∀ p ∈ oldShape.files.keys, t.nodes[loc p]? = some (.file [] ⟨0o644, (0, 0)⟩) := by
    decide +kernel
  have hfree : ∀ p ∈ newShape.files.keys, t.leaf (loc p) = none := by decide +kernel
  have hstaged : ∀ rel ∈ writtenPaths oldShape.files newShape.files,
      t.content (stagePath id rel) = none := by decide +kernel
  have hmanifest : t.content manifestTmp = none := by decide +kernel
  refine ⟨t', report, run, (applyCommit_turns (fun p hp => hdots p (hkeys p hp))
    (fun p hp => ⟨_, _, hfiles p (Lib.mem_keys_iff.mpr hp)⟩) ?_ ?_ run).1⟩
  · rintro l p hl hp rfl
    exact hl.there (hfree p (Lib.mem_keys_iff.mpr hp))
  · refine unlinked_applyPlaces (by decide +kernel) (by decide +kernel) (fun target => ?_)
      fun rel hrel target => ?_
    · rw [hmanifest]
      nofun
    · rw [hstaged rel hrel]
      nofun

/-- A manifest of one file with more nanoseconds than a second has. -/
def overlongNanos : Manifest :=
  manifestOf (.ofList [("a".toList, { emptyFile with mtimeNanos := 2000000000 })] compare)

/-- A file left in the staging directory. -/
def stagedLeftover : Loc := stagingDir ++ ["left".toList]

/-- A link at `.pear/manifest.tmp` that leads to a file of the worktree. -/
def linkedToFile : Tree :=
  ((treeWith [["u".toList]]).put manifestTmp (.link [.up, .down "u".toList])).getD preparedTree

/-- **What a successful apply does beyond its manifests**: it clamps nanoseconds, it removes what
stands in the staging directory, and it writes through a link at `.pear/manifest.tmp`. -/
theorem applyCommit_clamps_and_cleans :
    (let t := treeWith [stagedLeftover]
    ∃ (t' : Tree) (report : ApplyReport) (entry : FileEntry) (attr : Attr),
      Lib.Run (disk (fun _ => none) (7, 0) Empty nofun).step (fun _ _ => True)
        (t, applyCommit id id (fun _ => []) (manifestOf ∅) overlongNanos overlongNanos)
        (.replicate 17 .go) (t', .done report) ∧
      overlongNanos.files["a".toList]? = some entry ∧
      t'.nodes[loc "a".toList]? = some (.file [] attr) ∧
      attr.mtime ≠ (entry.mtimeSecs, entry.mtimeNanos) ∧
      t.leaf stagedLeftover ≠ none ∧ t'.leaf stagedLeftover = none) ∧
    ∃ (t' : Tree) (report : ApplyReport),
      Lib.Run (disk (fun _ => none) (7, 0) Empty nofun).step (fun _ _ => True)
        (linkedToFile, applyCommit id id (fun _ => [1]) (manifestOf ∅) (manifestOf ∅) (manifestOf ∅))
        (.replicate 9 .go) (t', .done report) ∧
      linkedToFile.content ["u".toList] = some (.file []) ∧
      t'.content ["u".toList] = some (.file [1]) := by
  constructor
  · intro t
    have hrun : (Lib.replay (disk (fun _ => none) (7, 0) Empty nofun).step
        (t, applyCommit id id (fun _ => []) (manifestOf ∅) overlongNanos overlongNanos)
        (.replicate 17 .go)).map (ended fun t' => decide
          (t'.nodes[loc "a".toList]? = some (.file [] ⟨0o644, (0, 999999999)⟩) ∧
            t'.leaf stagedLeftover = none)) = some true := by
      decide +kernel
    obtain ⟨t', report, run, hcheck⟩ := exists_ended hrun
    obtain ⟨hfile, hleft⟩ := of_decide_eq_true hcheck
    exact ⟨t', report, { emptyFile with mtimeNanos := 2000000000 }, _, run, by decide +kernel, hfile,
      by decide, by decide +kernel, hleft⟩
  · have hrun : (Lib.replay (disk (fun _ => none) (7, 0) Empty nofun).step
        (linkedToFile, applyCommit id id (fun _ => [1]) (manifestOf ∅) (manifestOf ∅) (manifestOf ∅))
        (.replicate 9 .go)).map
          (ended fun t' => decide (t'.content ["u".toList] = some (.file [1]))) = some true := by
      decide +kernel
    obtain ⟨t', report, run, hcheck⟩ := exists_ended hrun
    exact ⟨t', report, run, by decide +kernel, of_decide_eq_true hcheck⟩

end Pear
