import Pear.Disk.Inside

/-!
# Specifications of a materialization

What `apply_commit` may change (`MayApply`) and what the conflict copies may, as specifications
against the contract of `Pear.Disk.Calls`, with nobody else around. Each program keeps places unlinked,
since none makes a link; a copy that was made has the bytes of its original.
-/

namespace Pear

open Lib (Errno Node Attr Content)

/-- What a program does on its own. -/
abbrev Solo {α : Type} (source : Text → Option Bytes) (now : Int × Int)
    (allowed : Loc → Option (Content Text) → Prop) (Q : α → Tree → Prop) (p : DiskProg α) (t : Tree) :
    Prop :=
  Spec (disk source now Empty nofun) (fun _ => True) (fun _ _ => True) allowed Q p t

/-- What an apply may change: the places of the diff, with the bytes of their entries, and Pear's
own. -/
structure MayApply (source : Text → Option Bytes) (allowed : Loc → Option (Content Text) → Prop)
    (old new : FileMap) : Prop where
  deleted : ∀ p ∈ (diff old new).deleted, allowed (loc p) none
  written : ∀ p ∈ writtenPaths old new, ∀ entry, new[p]? = some entry →
    ∀ b, assemble source entry.chunks = some b → allowed (loc p) (some (.file b))
  staged : ∀ l, stagingDir <+: l → ∀ c, allowed l c
  temporary : ∀ c, allowed manifestTmp c
  pointer : ∀ c, allowed manifestLoc c

section
variable {source : Text → Option Bytes} {now : Int × Int}
  {allowed : Loc → Option (Content Text) → Prop} {P : Tree → Prop} {t : Tree} {l : Loc}

/-! ## Rules -/

/-- A loop whose body keeps an assertion. -/
theorem spec_forM {γ : Type} {f : γ → DiskProg PUnit} {xs : List γ}
    (hP : Stable (fun _ => True) P)
    (h : ∀ x ∈ xs, ∀ t, P t → Solo source now allowed (fun _ => P) (f x) t) (hp : P t) :
    Solo source now allowed (fun _ => P) (forM xs f) t := by
  induction xs generalizing t with
  | nil => exact spec_done hP hp
  | cons x xs ih =>
    refine Lib.wp_bind (Lib.wp_mono (h x List.mem_cons_self t hp) fun _ t' hp' => ?_)
    exact ih (fun y hy => h y (List.mem_cons_of_mem _ hy)) hp'

/-- A program that looks only at manifests. -/
theorem spec_checkManifests {lower : Text → Text} {old new : Manifest} (hP : Stable (fun _ => True) P)
    (hp : P t) : Solo source now allowed (fun _ => P) (checkManifests lower old new) t := by
  unfold checkManifests
  cases validate old with
  | error e => trivial
  | ok _ =>
    cases validate new with
    | error e => trivial
    | ok _ =>
      cases collision lower [] new.files.keys with
      | some pair => trivial
      | none => exact spec_done hP hp

/-! ## The apply -/

/-- The staging directory is prepared. -/
theorem spec_prepareStaging {places : List Loc} (hmem : stagingDir ∈ places)
    (ha : ∀ l, stagingDir <+: l → ∀ c, allowed l c) (h : Unlinked places t) :
    Solo source now allowed (fun _ => Unlinked places) prepareStaging t := by
  have hstable : Stable (fun _ => True) (Unlinked places) := stable_unlinked places
  unfold prepareStaging
  refine Lib.wp_bind (Lib.wp_mono (spec_must_quiet trivial hstable h) fun _ t h => ?_)
  refine Lib.wp_bind (Lib.wp_mono (spec_must_quiet trivial hstable h) fun _ t h => ?_)
  refine Lib.wp_bind (Lib.wp_mono (spec_must_quiet trivial hstable h) fun _ t h => ?_)
  refine Lib.wp_mono (Spec.unlinked (spec_cleanStaging (fun name => ?_) (h _ hmem)) h)
    fun _ _ hpost => hpost.2
  exact ha _ (List.prefix_append _ _) _

/-- The group flush changes nothing. -/
theorem spec_flushDiff {old new : FileMap} (hP : Stable (fun _ => True) P) (hp : P t) :
    Solo source now allowed (fun _ => P) (flushDiff old new) t := by
  unfold flushDiff
  refine Lib.wp_bind (Lib.wp_mono (spec_forM hP (fun rel _ t hp => ?_) hp) fun _ t hp =>
    spec_forM hP (fun dir _ t hp => spec_ignore_quiet trivial hP hp) hp)
  have hquiet : (DiskEffect.sync (loc rel)).Quiet := trivial
  refine spec_attempt hP hp (fun _ _ => hquiet.meets) (fun t hp => ?_) fun t f _ => trivial
  cases (DiskEffect.run now (.sync (loc rel)) t).1 with
  | ok _ => exact spec_done hP (hP.run hquiet hp)
  | error errno =>
    cases errno with
    | notFound => exact spec_done hP (hP.run hquiet hp)
    | _ => trivial

/-- A file is replaced by way of a temporary. -/
theorem spec_writeFileAtomic {tmp : Loc} {data : Bytes} (htmp : t.Plain tmp) (hl : t.Real l)
    (ha : ∀ c, allowed tmp c) (ha' : ∀ c, allowed l c) :
    Solo source now allowed (fun _ _ => True) (writeFileAtomic tmp l data) t := by
  have hreal : Stable (fun _ => True) fun t => t.Real l := stable_real l
  unfold writeFileAtomic
  refine Lib.wp_bind (Lib.wp_mono (Spec.keep (I := fun t => t.Real l)
    (spec_createPrivate trivial (stable_plain tmp) htmp (fun _ h => h) (ha _)) hreal
    (fun _ _ _ hlinks h => h.mono hlinks) hl) fun _ t h => ?_)
  refine Lib.wp_bind (Lib.wp_mono (Spec.keep (I := fun t => t.Real l)
    (spec_append trivial h.1 fun b => ha _) hreal (fun _ _ _ hlinks h => h.mono hlinks) h.2)
    fun _ t h => ?_)
  have hstable := (stable_holds (S := fun _ => True) (l := tmp) trivial ([] ++ data)).and hreal
  refine Lib.wp_bind (Lib.wp_mono (spec_must_quiet trivial hstable h) fun _ t h => ?_)
  refine Lib.wp_bind (Lib.wp_mono (spec_must hstable h (Q := fun _ => True) (fun t h => ?_) stable_true
    fun _ _ _ => trivial) fun _ t _ => spec_ignore_quiet trivial stable_true trivial)
  refine meets_rename h.1.1.real h.2 ?_ (ha _) (ha' _)
  rw [h.1.2]
  nofun

/-- An entry's file is written. -/
theorem spec_writeEntry {tag : Text → Text} {old new : FileMap} {places : List Loc} {p : Text}
    (h : MayApply source allowed old new) (hp : p ∈ writtenPaths old new)
    (hmem : stagePath tag p ∈ places) (hplaces : Unlinked places t) :
    Solo source now allowed (fun _ => Unlinked places) (writeEntry tag new p) t := by
  obtain ⟨entry, hentry⟩ := Option.ne_none_iff_exists'.mp (mem_writes.mp hp).1
  rw [writeEntry, hentry]
  refine Lib.wp_mono (Spec.unlinked (spec_writeFile trivial ⟨fun c => ?_, h.written p hp entry hentry⟩
    (hplaces _ hmem)) hplaces) fun _ _ hpost => hpost.2
  exact h.staged _ (List.prefix_append _ _) c

/-- The deletes and writes. -/
theorem spec_applyDiff {tag : Text → Text} {old new : FileMap} (h : MayApply source allowed old new)
    (hplaces : Unlinked (applyPlaces tag (writtenPaths old new)) t) :
    Solo source now allowed
      (fun _ => Unlinked (applyPlaces tag (writtenPaths old new)))
      (applyDiff tag old new) t := by
  have hstable : Stable (fun _ => True)
      (Unlinked (applyPlaces tag (writtenPaths old new))) :=
    stable_unlinked _
  have hdelete : ∀ (part : Text → Bool) (t : Tree),
      Unlinked (applyPlaces tag (writtenPaths old new)) t →
      Solo source now allowed
        (fun _ => Unlinked (applyPlaces tag (writtenPaths old new)))
        (forM ((diff old new).deleted.filter part) deleteFile) t := by
    refine fun part t hplaces => spec_forM hstable (fun p hp t hplaces => ?_) hplaces
    exact Lib.wp_mono (Spec.unlinked (spec_deleteFile (h.deleted p (List.mem_of_mem_filter hp)))
      hplaces) fun _ _ hpost => hpost.2
  have hwrite : ∀ (part : Text → Bool) (t : Tree),
      Unlinked (applyPlaces tag (writtenPaths old new)) t →
      Solo source now allowed
        (fun _ => Unlinked (applyPlaces tag (writtenPaths old new)))
        (forM ((writtenPaths old new).filter part) (writeEntry tag new)) t := by
    refine fun part t hplaces => spec_forM hstable (fun p hp t hplaces => ?_) hplaces
    have hp := List.mem_of_mem_filter hp
    exact spec_writeEntry h hp (List.mem_cons_of_mem _ (List.mem_cons_of_mem _
      (List.mem_map_of_mem hp))) hplaces
  unfold applyDiff
  refine Lib.wp_bind (Lib.wp_mono (hdelete _ t hplaces) fun _ t hplaces => ?_)
  refine Lib.wp_bind (Lib.wp_mono (hwrite _ t hplaces) fun _ t hplaces => ?_)
  refine Lib.wp_bind (Lib.wp_mono (hdelete _ t hplaces) fun _ t hplaces => ?_)
  exact hwrite _ t hplaces

/-- **An apply changes the places of its diff and Pear's own.** -/
theorem spec_applyCommit {lower tag : Text → Text} {encode : Manifest → Bytes}
    {old new commit : Manifest} (h : MayApply source allowed old.files new.files)
    (hplaces : Unlinked (applyPlaces tag
      (writtenPaths old.files new.files)) t) :
    Solo source now allowed (fun _ _ => True) (applyCommit lower tag encode old new commit) t := by
  have hstable : Stable (fun _ => True) (Unlinked (applyPlaces tag
      (writtenPaths old.files new.files))) := stable_unlinked _
  unfold applyCommit
  refine Lib.wp_bind (Lib.wp_mono (spec_checkManifests hstable hplaces) fun _ t hplaces => ?_)
  refine Lib.wp_bind (Lib.wp_mono (spec_prepareStaging List.mem_cons_self h.staged hplaces)
    fun _ t hplaces => ?_)
  refine Lib.wp_bind (Lib.wp_mono (spec_applyDiff h hplaces) fun _ t hplaces => ?_)
  refine Lib.wp_bind (Lib.wp_mono (spec_flushDiff hstable hplaces) fun _ t hplaces => ?_)
  have htmp : t.Plain manifestTmp := hplaces _ (List.mem_cons_of_mem _ List.mem_cons_self)
  have hpear : t.Plain pearLoc := fun d hd => htmp d (hd.trans ⟨["manifest.tmp".toList], rfl⟩)
  exact Lib.wp_bind (Lib.wp_mono (spec_writeFileAtomic htmp (real_concat hpear _) h.temporary h.pointer)
    fun _ t _ => spec_done stable_true trivial)

/-! ## Conflict copies -/

/-- The place of a conflict copy is prepared. -/
theorem spec_conflictDest {copy : ConflictCopy} (hP : Stable (fun _ => True) P) (hp : P t) :
    Solo source now allowed (fun _ t => P t ∧ t.Real (loc copy.copyPath)) (conflictDest copy) t := by
  have hP' := hP.and (stable_real (S := fun _ => True) (loc copy.copyPath))
  unfold conflictDest
  refine Lib.wp_bind (Lib.wp_mono (spec_ensureRealAncestors hP hp) fun _ t h => ?_)
  refine Lib.wp_bind (Lib.wp_mono (spec_must_quiet trivial hP' h) fun _ t h => ?_)
  split
  · exact spec_must_quiet trivial hP' h
  · exact spec_done hP' h

/-- Where there is a file, no link is on the way. -/
theorem plain_of_file {b : Bytes} (h : t.content l = some (.file b)) : t.Plain l := by
  refine Lib.FileTree.Real.plain (fun d hd hne target hl => ?_) fun target hl => by simp [h] at hl
  have hthere : t.nodes[l]? ≠ none := fun hnone => by
    simp [Lib.FileTree.content_of_none hnone] at h
  rcases Lib.FileTree.isDir_of_prefix hthere hd hne with rfl | hdir
  · rw [t.content_root] at hl
    cases hl
  · rw [Lib.FileTree.content_of_dir hdir] at hl
    cases hl

/-- What is read at a file is its bytes. -/
theorem read_of_file {b data : Bytes} {attr : Attr} (h : t.content l = some (.file b))
    (hr : t.read l = .ok (data, attr)) : data = b := by
  unfold Lib.FileTree.read at hr
  rcases (plain_of_file h).locate true with hloc | ⟨e, hloc⟩
  · rw [hloc] at hr
    dsimp only at hr
    unfold Lib.FileTree.content at h
    split at hr
    · cases hr
    · split at hr
      · cases hr
      · rename_i hnode
        rw [hnode] at h
        cases hr
        cases h
        rfl
      · cases hr
  · rw [hloc] at hr
    cases hr

/-- **A local loser's copy has its bytes.** -/
theorem spec_copyLocalLoser {copy : ConflictCopy}
    (hno : ∀ target, t.content (loc copy.copyPath) ≠ some (.link target))
    (ha : ∀ b, allowed (loc copy.copyPath) (some (.file b))) :
    Solo source now allowed
      (fun _ t' => ∀ b, t.content (loc copy.path) = some (.file b) →
        t'.content (loc copy.copyPath) = some (.file b)) (copyLocalLoser copy) t := by
  have hstart : Stable (fun _ => True) fun t' => ∀ x, t'.content x = t.content x :=
    Stable.forall fun x => stable_content trivial _
  have hdone : Stable (fun _ => True) fun t' => ∀ b, t.content (loc copy.path) = some (.file b) →
      t'.content (loc copy.copyPath) = some (.file b) :=
    Stable.forall fun b => Stable.imp fun _ => stable_content trivial _
  unfold copyLocalLoser
  refine Lib.wp_bind (Lib.wp_mono (spec_conflictDest hstart fun _ => rfl) fun _ t' h => ?_)
  have hplain : ∀ t' : Tree, (∀ x, t'.content x = t.content x) ∧ t'.Real (loc copy.copyPath) →
      t'.Plain (loc copy.copyPath) := fun t' h =>
    h.2.plain fun target => h.1 (loc copy.copyPath) ▸ hno target
  refine Lib.wp_bind (Lib.wp_mono (spec_must (hstart.and (stable_real _)) h
    (fun t' h => meets_copy (hplain t' h) ha) hdone fun t' h hr b hb => ?_) fun _ t' h => ?_)
  · rw [← h.1] at hb
    dsimp only [DiskEffect.run] at hr ⊢
    cases hread : t'.read (loc copy.path) with
    | error e =>
      rw [hread] at hr
      cases hr
    | ok read =>
      obtain ⟨data, attr⟩ := read
      rw [hread] at hr
      obtain rfl := read_of_file hb hread
      exact Lib.FileTree.content_write_self (hplain t' h) hr
  refine Lib.wp_bind (Lib.wp_mono (spec_must_quiet trivial hdone h) fun _ t' h => ?_)
  refine Lib.wp_bind (Lib.wp_mono (spec_must_quiet trivial hdone h) fun _ t' h => ?_)
  exact spec_ignore_quiet trivial hdone h

/-- A remote loser is assembled at its place. -/
theorem spec_assembleLocalCopy {copy : ConflictCopy}
    (hno : ∀ target, t.content (loc copy.copyPath) ≠ some (.link target))
    (ha : ∀ b, allowed (loc copy.copyPath) (some (.file b))) :
    Solo source now allowed (fun _ _ => True) (assembleLocalCopy copy) t := by
  have hstart : Stable (fun _ => True)
      fun t => ∀ target, t.content (loc copy.copyPath) ≠ some (.link target) := stable_not_link _
  unfold assembleLocalCopy
  refine Lib.wp_bind (Lib.wp_mono (spec_conflictDest hstart hno) fun _ t h => ?_)
  refine Lib.wp_bind (Lib.wp_mono (spec_createPrivate trivial (stable_plain _) (h.2.plain h.1)
    (fun _ h => h) (ha _)) fun _ t h => ?_)
  refine Lib.wp_bind (Lib.wp_mono (spec_appendChunks trivial h ha) fun _ t _ => ?_)
  refine Lib.wp_bind (Lib.wp_mono (spec_must_quiet trivial stable_true trivial) fun _ t _ => ?_)
  exact spec_ignore_quiet trivial stable_true trivial

/-- What a conflict copy needs. -/
theorem spec_preserve {copy : ConflictCopy}
    (hno : copy.side = .localSide ∨ copy.localOnly = true →
      ∀ target, t.content (loc copy.copyPath) ≠ some (.link target))
    (ha : copy.side = .localSide ∨ copy.localOnly = true →
      ∀ b, allowed (loc copy.copyPath) (some (.file b))) :
    Solo source now allowed
      (fun _ t' => copy.side = .localSide → ∀ b, t.content (loc copy.path) = some (.file b) →
        t'.content (loc copy.copyPath) = some (.file b)) (preserve copy) t := by
  unfold preserve
  split
  · rename_i hside
    exact Lib.wp_mono (spec_copyLocalLoser (hno (.inl hside)) (ha (.inl hside))) fun _ _ h _ => h
  · rename_i hlocal hside
    refine Lib.wp_mono (spec_assembleLocalCopy (hno (.inr hlocal)) (ha (.inr hlocal))) fun _ _ _ h => ?_
    rw [hside] at h
    cases h
  · rename_i hside
    exact Lib.wp_mono (spec_copyLocalLoser (hno (.inl hside)) (ha (.inl hside))) fun _ _ h _ => h
  · rename_i hside
    refine Lib.wp_mono (Q := fun _ _ => True) (spec_done stable_true trivial) fun _ _ _ h => ?_
    rw [hside] at h
    cases h

end

end Pear
