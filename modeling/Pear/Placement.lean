import Pear.Capture

/-!
# What a materialization leaves at a path

`materialize` copies the conflict losers aside and then applies what differs between the captured files
and the merge (`converge.rs`). On disk a path ends as one of five things (`LeftAt`): the file that was
there, nothing, the file its entry is written as, the copy of a local loser, or the file of a remote one.
That holds whatever manifest the merge was made over, also one that does not say what the disk holds.

The head does not replace what is at a path in four cases (`Unreplaced`): the rule table then keeps the
captured entry, sends it to a conflict copy, or takes an entry with the same content
(`unreplaced_iff`).
-/

namespace Pear

/-- The files of a workspace: its tree, and what is below `.pear/conflicts`. -/
structure Placed where
  disk : DiskMap
  aside : DiskMap

/-- Put a conflict copy on disk, below `.pear/conflicts` where it stays on this device
(`copy_local_loser`, `assemble_local_copy`). -/
def Placed.copy (a : Round) (p : Placed) (c : ConflictCopy) : Option Placed :=
  match c.localOnly, c.side with
  | true, .localSide => p.disk[c.path]?.map fun f =>
    { p with aside := p.aside.insert c.copyPath { f with mtime := .ofEntry c.entry } }
  | true, .remoteSide => (assemble a.data c.entry.chunks).map fun bytes =>
    { p with aside := p.aside.insert c.copyPath { bytes, mode := 0o600, mtime := a.stagedAt } }
  | false, _ => (copyFile a p.disk c).map fun disk => { p with disk }

/-- Put a merge over captured files on disk (`materialize`). -/
def Placed.materialize (a : Round) (captured : FileMap) (out : MergeOutcome) (p : Placed) :
    Option Placed :=
  match validate out.merged with
  | .error _ => none
  | .ok () =>
    (out.conflicts.foldlM (Placed.copy a) p).bind fun p' =>
      ((applyOps (onDisk captured out.conflicts) out.merged.files).foldlM (TreeOp.runOn a)
        p'.disk).map fun disk => { p' with disk }

/-! ## What the rule table does to a file -/

/-- An entry has some content: the bytes of its chunks. -/
def HasContent (a : Round) (e : Option FileEntry) (bytes : Bytes) : Prop :=
  (e.bind fun e => assemble a.data e.chunks) = some bytes

/-- The head does not replace content at its path, by the path's recorded, scanned and head entries: the
head holds what was scanned or recorded or this content, or the scan has a change that is not the head's
content under an older time. -/
def Unreplaced (a : Round) (b l r : Option FileEntry) (bytes : Bytes) : Prop :=
  r = l ∨ r = b ∨ HasContent a r bytes ∨ ∃ le, l = some le ∧ l ≠ b ∧
    ∀ re, r = some re → sameContent le re = true → mtimeGe re le = false

/-- **The head does not replace content exactly where the rule table keeps the captured entry, copies it,
or takes an entry with that content.** -/
theorem unreplaced_iff {a : Round} {b l r : Option FileEntry} {bytes : Bytes} :
    Unreplaced a b l r bytes ↔ (decidePath b l r).entry = l ∨
      (∃ e, (decidePath b l r).loser = some (.localSide, e)) ∨
      HasContent a (decidePath b l r).entry bytes := by
  have hdec := decidePath_decided b l r
  have hlast : ∀ {le}, l = some le → l ≠ b → (∀ re, r = some re → sameContent le re = true →
      mtimeGe re le = false) → Unreplaced a b l r bytes :=
    fun hl hlb h => .inr (.inr (.inr ⟨_, hl, hlb, h⟩))
  generalize decidePath b l r = d at hdec ⊢
  cases hdec with
  | agree h => exact iff_of_true (.inl h.symm) (.inl rfl)
  | remoteMoved hlr hlb =>
    unfold Unreplaced
    rw [← hlb]
    simp [Decision.entry, Decision.loser, Ne.symm hlr]
  | localMoved hlr hlb h => exact iff_of_true (.inr (.inl h)) (.inl rfl)
  | remoteEdit hl hr hlb hrb =>
    unfold Unreplaced
    rw [or_iff_right hrb]
    simp [Decision.entry, Decision.loser, hl]
  | localEdit hl hr hlb hrb =>
    exact iff_of_true (hlast hl hlb fun re hre => by simp [hr] at hre) (.inl rfl)
  | @newer le re hl hr hlr hlb hrb hc =>
    cases hm : mtimeGe re le with
    | false =>
      refine iff_of_true (hlast hl hlb fun re' hre _ => ?_) (.inl (by simp [Decision.entry, hl]))
      obtain rfl := Option.some.inj (hr.symm.trans hre)
      exact hm
    | true =>
      unfold Unreplaced
      rw [or_iff_right hrb]
      simp [Decision.entry, Decision.loser, hl, hr, hc, hm]
  | @localLoses le re hl hr hlr hlb hrb hc hm =>
    refine iff_of_true (hlast hl hlb fun re' hre h => ?_) (.inr (.inl ⟨le, rfl⟩))
    obtain rfl := Option.some.inj (hr.symm.trans hre)
    exact Bool.noConfusion (hc.symm.trans h)
  | @remoteLoses le re hl hr hlr hlb hrb hc hm =>
    refine iff_of_true (hlast hl hlb fun re' hre h => ?_) (.inl hl.symm)
    obtain rfl := Option.some.inj (hr.symm.trans hre)
    exact Bool.noConfusion (hc.symm.trans h)

/-! ## What is left at a path -/

/-- No ordinary conflict copy is at a path. -/
def FreeOf (conflicts : List ConflictCopy) (q : Text) : Prop :=
  ∀ c ∈ conflicts, c.localOnly = false → c.copyPath ≠ q

/-- What a materialization over captured files leaves at a path, in the merge and on disk, where the
rule table leaves `decided`. -/
inductive LeftAt (a : Round) (disk : DiskMap) (conflicts : List ConflictCopy)
    (captured decided : Option FileEntry) (q : Text) : Option FileEntry → Option DiskFile → Prop
  /-- The path keeps what was captured. -/
  | kept (hfree : FreeOf conflicts q) (hcap : decided = captured) :
      LeftAt a disk conflicts captured decided q decided disk[q]?
  | deleted (hfree : FreeOf conflicts q) (hcap : decided ≠ captured) (hnone : decided = none) :
      LeftAt a disk conflicts captured decided q none none
  | written {e : FileEntry} {f : DiskFile} (hfree : FreeOf conflicts q) (hcap : decided ≠ captured)
      (he : decided = some e) (hf : writtenFile a e = some f) :
      LeftAt a disk conflicts captured decided q (some e) (some f)
  | localCopy {c : ConflictCopy} {f : DiskFile} (hc : c ∈ conflicts) (hl : c.localOnly = false)
      (hs : c.side = .localSide) (hq : c.copyPath = q) (hf : disk[c.path]? = some f) :
      LeftAt a disk conflicts captured decided q (some c.entry)
        (some { f with mtime := .ofEntry c.entry })
  | remoteCopy {c : ConflictCopy} {f : DiskFile} (hc : c ∈ conflicts) (hl : c.localOnly = false)
      (hs : c.side = .remoteSide) (hq : c.copyPath = q) (hf : writtenFile a c.entry = some f) :
      LeftAt a disk conflicts captured decided q (some c.entry) (some f)

section
variable {a : Round} {base captured remote : FileMap} {device stamp : Text} {out : MergeOutcome}
  {disk copied disk' : DiskMap} {p p' : Placed} {c : ConflictCopy} {q : Text}

/-- No copy of a merge is made over a loser. -/
theorem MergeResult.copyPath_ne_path (h : MergeResult base captured remote device stamp
    out.merged.files out.conflicts) : ∀ c ∈ out.conflicts, ∀ d ∈ out.conflicts,
      c.localOnly = false → c.copyPath ≠ d.path :=
  fun c hc d hd hl => (h.copyOf c hc).copyPath_ne hl (.inl (h.copyOf d hd).inputs.1)

/-- **A materialization leaves one of these at every path.** -/
theorem leftAt_of_apply (hres : MergeResult base captured remote device stamp out.merged.files
    out.conflicts) (hcopied : out.conflicts.foldlM (copyFile a) disk = some copied)
    (hdisk : (applyOps (onDisk captured out.conflicts) out.merged.files).foldlM (TreeOp.runOn a)
      copied = some disk') (q : Text) :
    LeftAt a disk out.conflicts captured[q]? (decideAt base captured remote q).entry q
      out.merged.files[q]? disk'[q]? := by
  have hcopies := copyFiles_get q hcopied hres.copyPath_ne_path
  have happly := applyOn_get hdisk q
  by_cases hcopy : ∃ c ∈ out.conflicts, c.localOnly = false ∧ c.copyPath = q
  · obtain ⟨c, hc, hl, rfl⟩ := hcopy
    have hm := hres.copied c hc hl
    cases hs : c.side with
    | localSide =>
      have hold := hres.onDisk_get_copy hc hl hs
      rcases hcopies with ⟨hnone, -⟩ | ⟨d, hd, ⟨hdl, hds, hdq⟩, f, hf, hget⟩
      · exact absurd ⟨hl, hs, rfl⟩ (hnone c hc)
      · obtain rfl := hres.eq_of_copyPath hd hc (hdl.trans hl.symm) hdq
        rcases happly with ⟨-, hd'⟩ | ⟨hne, -⟩
        · rw [hm, hd', hget]
          exact .localCopy hc hl hs rfl hf
        · exact absurd (hm.trans hold.symm) hne
    | remoteSide =>
      have hcap : captured[c.copyPath]? = none := by
        by_contra hsome
        exact (hres.copyOf c hc).copyPath_ne hl (.inl hsome) rfl
      have hold : (onDisk captured out.conflicts)[c.copyPath]? = none := by
        rw [onDisk_get_of_no_copy _ _ fun d hd hdl hds hdq => ?_, hcap]
        obtain rfl := hres.eq_of_copyPath hd hc (hdl.trans hl.symm) hdq
        exact ConflictSide.noConfusion (hs.symm.trans hds)
      rcases happly with ⟨heq, -⟩ | ⟨-, ⟨hnone, -⟩ | ⟨e, f, he, hf, hd⟩⟩
      · rw [hm, hold] at heq
        cases heq
      · rw [hm] at hnone
        cases hnone
      · obtain rfl := Option.some.inj (hm.symm.trans he)
        rw [hm, hd]
        exact .remoteCopy hc hl hs rfl hf
  · have hfree : FreeOf out.conflicts q := fun c hc hl hq => hcopy ⟨c, hc, hl, hq⟩
    have hm := hres.decided q hfree
    have hold := onDisk_get_of_input out.conflicts captured hfree
    have hcopied : copied[q]? = disk[q]? := by
      rcases hcopies with ⟨-, hget⟩ | ⟨d, hd, ⟨hdl, -, hdq⟩, -⟩
      · exact hget
      · exact absurd hdq (hfree d hd hdl)
    rw [hold, hm] at happly
    rcases happly with ⟨hcap, hd⟩ | ⟨hcap, ⟨hnone, hd⟩ | ⟨e, f, he, hf, hd⟩⟩
    · rw [hm, hd, hcopied]
      exact .kept hfree hcap
    · rw [hm.trans hnone, hd]
      exact .deleted hfree hcap hnone
    · rw [hm.trans he, hd]
      exact .written hfree hcap he hf

/-- Putting a copy on disk does to the tree what `copyFile` does. -/
theorem Placed.copy_disk (h : p.copy a c = some p') : copyFile a p.disk c = some p'.disk := by
  unfold copy at h
  unfold copyFile
  split at h
  · rename_i hl hs
    obtain ⟨f, hf, rfl⟩ := Option.map_eq_some_iff.mp h
    rw [hl, hs, hf]
    rfl
  · rename_i hl hs
    obtain ⟨bytes, hb, rfl⟩ := Option.map_eq_some_iff.mp h
    rw [hl, hs, hb]
    rfl
  · obtain ⟨disk, hdisk, rfl⟩ := Option.map_eq_some_iff.mp h
    exact hdisk

/-- A copy below `.pear/conflicts` holds the file that was at its path. -/
theorem Placed.copy_aside (h : p.copy a c = some p') (q : Text) :
    p'.aside[q]? = p.aside[q]? ∨ c.localOnly = true ∧ c.copyPath = q := by
  unfold copy at h
  split at h
  · rename_i hl hs
    obtain ⟨f, hf, rfl⟩ := Option.map_eq_some_iff.mp h
    by_cases hq : c.copyPath = q
    · exact .inr ⟨hl, hq⟩
    · exact .inl (by rw [Lib.getElem?_insert_eq, if_neg hq])
  · rename_i hl hs
    obtain ⟨bytes, hb, rfl⟩ := Option.map_eq_some_iff.mp h
    by_cases hq : c.copyPath = q
    · exact .inr ⟨hl, hq⟩
    · exact .inl (by rw [Lib.getElem?_insert_eq, if_neg hq])
  · obtain ⟨disk, -, rfl⟩ := Option.map_eq_some_iff.mp h
    exact .inl rfl

end

end Pear
