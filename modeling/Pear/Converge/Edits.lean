import Pear.Converge.Faults
import Pear.Lib.Runs

/-!
# Edits during a converge

A converge reads files, merges, copies losers aside and applies, and the user goes on writing files
between any two of these steps. What an apply deletes or replaces was decided over what the scan had
found. A file that is written after that, and before the rename, is gone (`rename_overwrites_edit`).

`edits_kept` says when nothing is lost: in a run whose merges replace no content that the user wrote, and
whose later writes are not to paths that are still to be overwritten, every such content is on disk at its
path or in a conflict copy, in every state.
-/

namespace Pear

/-! ## The steps -/

/-- A place of a file: in the tree or below `.pear/conflicts`. -/
structure Spot where
  aside : Bool
  path : Text
deriving DecidableEq

/-- The bytes at a place. -/
def Placed.bytesAt (p : Placed) (x : Spot) : Option Bytes :=
  (if x.aside then p.aside else p.disk).bytes x.path

/-- The place of a conflict copy. -/
def ConflictCopy.spot (c : ConflictCopy) : Spot := ⟨c.localOnly, c.copyPath⟩

/-- Where a converge is. -/
inductive DeskPhase where
  | idle
  /-- The scan has found these files, and captured some of them. -/
  | scanning (a : Round) (base : Manifest) (head : Option Manifest) (found : DiskMap)
      (captured : FileMap)
  /-- These conflict copies are still to be made, before what differs from `old` is applied. -/
  | copying (a : Round) (remote : Manifest) (out : MergeOutcome) (old : FileMap)
      (todo : List ConflictCopy)
  | applying (a : Round) (remote : Manifest) (out : MergeOutcome) (old : FileMap)
      (todo : List TreeOp)
  | applied (remote merged : Manifest)

/-- A workspace in use. -/
structure Desk where
  placed : Placed
  recorded : Manifest
  phase : DeskPhase
  /-- The places of the conflict copies made so far. -/
  copies : List Spot
  /-- What the user wrote to a path, and has not overwritten or deleted since. -/
  wrote : List (Text × Bytes)

inductive DeskEvent where
  | write (p : Text) (f : DiskFile)
  | delete (p : Text)
  /-- A converge starts, and gets the head. -/
  | begin (a : Round) (head : Option Manifest)
  /-- The walk of the scan finds a file. -/
  | find (p : Text)
  /-- The scan makes the entry of a file it has found. -/
  | read (p : Text) (fails : Bool)
  /-- The scan retains the recorded entry below a path that it could not read. -/
  | retain (p : Text)
  | merge
  | copy
  | apply
  | publish
  /-- Another device published first: the next attempt starts, and gets the head. -/
  | lose (a : Round) (head : Option Manifest)
  | fail

/-- The entry of a file that was found, from what is at its path when it is read
(`scan_build_manifest`). -/
def readFound (a : Round) (scannedAt : Int) (recorded : Option FileEntry) (found : DiskFile)
    (now : Option DiskFile) (fails : Bool) : Option FileEntry :=
  let e := captureFile a scannedAt recorded found
  if recorded.any (reusable a.present scannedAt found) then some e
  else match now, fails with
    | some f, false => some { e with chunks := a.upload f.bytes }
    | _, _ => lastGood a recorded

/-- An optional entry put into a map. -/
def FileMap.put (m : FileMap) (p : Text) : Option FileEntry → FileMap
  | some e => m.insert p e
  | none => m

/-- What the user wrote, after something is written to a path or deleted: without what was written to
that path, and without what a conflict copy there held. -/
def Desk.forget (s : Desk) (p : Text) : List (Text × Bytes) :=
  s.wrote.filter fun w =>
    w.1 ≠ p && !(decide (⟨false, p⟩ ∈ s.copies) && s.placed.disk.bytes p = some w.2)

/-- The merge of an attempt, over the manifest its scan has built. -/
def mergeCaptured (device : Text) (a : Round) (base recorded : Manifest) (head : Option Manifest)
    (captured : FileMap) : MergeOutcome :=
  merge base
    { version := formatVersion
      workspaceId := recorded.workspaceId
      scannedAtSecs := a.scannedAt
      files := captured }
    (head.getD (.new recorded.workspaceId)) device a.stamp

/-- One step of the user or of the converge. -/
def Desk.step (device : Text) (s : Desk) : DeskEvent → Option Desk
  | .write p f => some { s with
      placed := { s.placed with disk := s.placed.disk.insert p f }
      wrote := (p, f.bytes) :: s.forget p }
  | .delete p => some { s with
      placed := { s.placed with disk := s.placed.disk.erase p }
      wrote := s.forget p }
  | .begin a head => match s.phase with
    | .idle => some { s with phase := .scanning a s.recorded head ∅ ∅ }
    | _ => none
  | .find p => match s.phase with
    | .scanning a base head found captured => s.placed.disk[p]?.map fun f =>
      { s with phase := .scanning a base head (found.insert p f) captured }
    | _ => none
  | .read p fails => match s.phase with
    | .scanning a base head found captured => found[p]?.map fun f =>
      let e := readFound a s.recorded.scannedAtSecs s.recorded.files[p]? f s.placed.disk[p]? fails
      { s with phase := .scanning a base head found (FileMap.put captured p e) }
    | _ => none
  | .retain p => match s.phase with
    | .scanning a base head found captured =>
      let e := captured[p]?.or (lastGood a s.recorded.files[p]?)
      some { s with phase := .scanning a base head found (FileMap.put captured p e) }
    | _ => none
  | .merge => match s.phase with
    | .scanning a base head _ captured =>
      let out := mergeCaptured device a base s.recorded head captured
      let remote := head.getD (.new s.recorded.workspaceId)
      let old := onDisk captured out.conflicts
      match validate out.merged with
      | .error _ => some { s with phase := .idle }
      | .ok () => some { s with phase := .copying a remote out old out.conflicts }
    | _ => none
  | .copy => match s.phase with
    | .copying a remote out old (c :: todo) => match s.placed.copy a c with
      | some placed =>
        some { s with placed, copies := c.spot :: s.copies, phase := .copying a remote out old todo }
      | none => some { s with phase := .idle }
    | _ => none
  | .apply => match s.phase with
    | .copying a remote out old [] =>
      some { s with phase := .applying a remote out old (applyOps old out.merged.files) }
    | .applying a remote out old (op :: todo) => match op.runOn a s.placed.disk with
      | some disk => some { s with
          placed := { s.placed with disk }
          phase := .applying a remote out old todo }
      | none => some { s with phase := .idle }
    | .applying _ remote out old [] => some { s with
        recorded := if diff old out.merged.files = {} then s.recorded else remote
        phase := .applied remote out.merged }
    | _ => none
  | .publish => match s.phase with
    | .applied _ merged => some { s with recorded := merged, phase := .idle }
    | _ => none
  | .lose a head => match s.phase with
    | .applied remote _ => some { s with phase := .scanning a remote head ∅ ∅ }
    | _ => none
  | .fail => match s.phase with
    | .idle => none
    | _ => some { s with phase := .idle }

/-! ## What is kept -/

/-- A step of an apply destroys content at a path. -/
def Overwrites (a : Round) (q : Text) (bytes : Bytes) : TreeOp → Prop
  | .delete p => p = q
  | .rename p e => p = q ∧ ¬HasContent a (some e) bytes
  | .setMtime _ _ => False

/-- What a converge has still to do spares content at a place: no copy takes the place, and no step of
the apply destroys the content, or the file there is still to be copied aside. -/
def DeskPhase.Spares (x : Spot) (bytes : Bytes) : DeskPhase → Prop
  | .copying a _ out old todo => (∀ c ∈ todo, c.spot ≠ x) ∧ (x.aside = false →
      (∃ c ∈ todo, c.side = .localSide ∧ c.path = x.path) ∨
        ∀ op ∈ applyOps old out.merged.files, ¬Overwrites a x.path bytes op)
  | .applying a _ _ _ todo => x.aside = false → ∀ op ∈ todo, ¬Overwrites a x.path bytes op
  | _ => True

/-- The places where content that was written to a path may be. -/
def Desk.spots (s : Desk) (p : Text) : List Spot := ⟨false, p⟩ :: s.copies

/-- Everything the user wrote is on disk, at its path or in a conflict copy. -/
def Desk.Kept (s : Desk) : Prop :=
  ∀ w ∈ s.wrote, ∃ x ∈ s.spots w.1, s.placed.bytesAt x = some w.2

/-- A step is careful with what the user wrote: a write is to a path where the converge has nothing left
to do that destroys it, and a merge puts no conflict copy over such content and replaces none of it by
the head's. -/
def Desk.Careful (device : Text) (s : Desk) : DeskEvent → Prop
  | .write p f => s.phase.Spares ⟨false, p⟩ f.bytes
  | .merge => ∀ a base head found captured, s.phase = .scanning a base head found captured →
    ∀ w ∈ s.wrote, ∃ x ∈ s.spots w.1, s.placed.bytesAt x = some w.2 ∧
      (∀ c ∈ (mergeCaptured device a base s.recorded head captured).conflicts, c.spot ≠ x) ∧
      (x.aside = false → Unreplaced a base.files[x.path]? captured[x.path]?
        (head.getD (.new s.recorded.workspaceId)).files[x.path]? w.2)
  | _ => True

/-- The copies and the apply at hand come from a merge. -/
def DeskPhase.Merging : DeskPhase → Prop
  | .copying _ _ out old todo => ∃ base l r device stamp,
    MergeResult base l r device stamp out.merged.files out.conflicts ∧
      old = onDisk l out.conflicts ∧ todo <:+ out.conflicts
  | _ => True

/-- What every careful step keeps: everything the user wrote is somewhere where it is spared. -/
structure DeskInv (s : Desk) : Prop where
  spared : ∀ w ∈ s.wrote, ∃ x ∈ s.spots w.1, s.placed.bytesAt x = some w.2 ∧ s.phase.Spares x w.2
  merging : s.phase.Merging

section
variable {device : Text} {s s' : Desk} {a : Round} {p p' : Placed} {c : ConflictCopy} {x : Spot}
  {bytes : Bytes} {q : Text} {op : TreeOp} {disk disk' : DiskMap}

/-- A step destroys content at its own path only. -/
theorem Overwrites.path (h : Overwrites a q bytes op) : op.path = q := by
  cases op with
  | delete => exact h
  | rename => exact h.1
  | setMtime => cases h

/-- Content that a step does not destroy is there after it. -/
theorem bytes_of_not_overwrites (h : op.runOn a disk = some disk')
    (hop : ¬Overwrites a q bytes op) (hq : disk.bytes q = some bytes) : disk'.bytes q = some bytes := by
  have hget := op.runOn_get h q
  obtain ⟨f, hf, hbytes⟩ := Option.map_eq_some_iff.mp hq
  split at hget
  · rename_i hpath
    cases op with
    | delete p => exact absurd hpath hop
    | rename p e =>
      obtain ⟨g, hg, hd⟩ := Option.map_eq_some_iff.mp hget
      obtain ⟨b, hb, rfl⟩ := Option.map_eq_some_iff.mp hg
      have hcontent : HasContent a (some e) bytes := not_not.mp fun hn => hop ⟨hpath, hn⟩
      rw [HasContent, Option.bind_some, hb] at hcontent
      rw [DiskMap.bytes, ← hd]
      exact hcontent
    | setMtime p e =>
      have hd := Option.some.inj hget
      rw [DiskMap.bytes, ← hd, hf]
      simpa using hbytes
  · rw [DiskMap.bytes, ← Option.some.inj hget]
    exact hq

/-- An apply destroys no content at a path where the maps agree or the new entry has it. -/
theorem not_overwrites {old new : FileMap} (h : new[q]? = old[q]? ∨ HasContent a new[q]? bytes) :
    ∀ op ∈ applyOps old new, ¬Overwrites a q bytes op := by
  intro op hop hover
  have hmem : op ∈ (applyOps old new).filter (·.path = q) :=
    List.mem_filter.mpr ⟨hop, decide_eq_true hover.path⟩
  rw [applyOps_at] at hmem
  split at hmem
  · cases hmem
  rename_i hne
  have hcontent := h.resolve_left hne
  cases hn : new[q]? with
  | none =>
    rw [hn] at hcontent
    cases hcontent
  | some e =>
    rw [if_neg (by simp [hn]), writeOps, hn] at hmem
    rw [hn] at hcontent
    simp only [List.mem_cons, List.not_mem_nil, or_false] at hmem
    rcases hmem with rfl | rfl
    · exact hover.2 hcontent
    · exact hover

/-- A copy leaves every other place alone. -/
theorem Placed.copy_bytesAt (h : p.copy a c = some p') (hx : c.spot ≠ x) :
    p'.bytesAt x = p.bytesAt x := by
  obtain ⟨aside, path⟩ := x
  cases aside with
  | true =>
    rcases copy_aside h path with hget | ⟨hl, hpath⟩
    · simp [bytesAt, DiskMap.bytes, hget]
    · exact absurd (by rw [ConflictCopy.spot, hl, hpath]) hx
  | false =>
    rcases copyFile_get (copy_disk h) path with ⟨-, hget⟩ | ⟨⟨hl, -, hpath⟩, -⟩
    · simp [bytesAt, DiskMap.bytes, hget]
    · exact absurd (by rw [ConflictCopy.spot, hl, hpath]) hx

/-- The copy of a local loser has the bytes that were at its path. -/
theorem Placed.copy_bytesAt_spot (h : p.copy a c = some p') (hs : c.side = .localSide) :
    p'.bytesAt c.spot = p.disk.bytes c.path := by
  cases hl : c.localOnly with
  | true =>
    unfold copy at h
    rw [hl, hs] at h
    obtain ⟨f, hf, rfl⟩ := Option.map_eq_some_iff.mp h
    simp [bytesAt, ConflictCopy.spot, hl, DiskMap.bytes, hf]
  | false =>
    rcases copyFile_get (copy_disk h) c.copyPath with ⟨hmiss, -⟩ | ⟨-, f, hf, hget⟩
    · exact absurd ⟨hl, hs, rfl⟩ hmiss
    · simp [bytesAt, ConflictCopy.spot, hl, DiskMap.bytes, hf, hget]

section
variable {base l r : FileMap} {stamp : Text} {out : MergeOutcome}

/-- Content that the head does not replace is spared when the merge is made. -/
theorem spares_of_unreplaced {remote : Manifest}
    (hres : MergeResult base l r device stamp out.merged.files out.conflicts)
    (hfree : ∀ c ∈ out.conflicts, c.spot ≠ x)
    (h : x.aside = false → Unreplaced a base[x.path]? l[x.path]? r[x.path]? bytes) :
    (DeskPhase.copying a remote out (onDisk l out.conflicts) out.conflicts).Spares x bytes := by
  refine ⟨hfree, fun haside => ?_⟩
  have hfree' : FreeOf out.conflicts x.path := by
    intro c hc hl hpath
    exact hfree c hc (by rw [ConflictCopy.spot, hl, hpath, ← haside])
  have hnew : out.merged.files[x.path]? = (decidePath base[x.path]? l[x.path]? r[x.path]?).entry :=
    hres.decided _ hfree'
  have hold := onDisk_get_of_input out.conflicts l hfree'
  rcases unreplaced_iff.mp (h haside) with hcap | ⟨e, hlost⟩ | hcontent
  · exact .inr (not_overwrites (.inl (by rw [hnew, hcap, hold])))
  · obtain ⟨c, hc, hpath, hs, -⟩ := hres.complete _ _ _ hlost
    exact .inl ⟨c, hc, hs, hpath⟩
  · exact .inr (not_overwrites (.inr (hnew ▸ hcontent)))

/-- The copy of a local loser is spared by what is left to do. -/
theorem spares_of_copied {remote : Manifest} {todo : List ConflictCopy}
    (hres : MergeResult base l r device stamp out.merged.files out.conflicts)
    (htodo : c :: todo <:+ out.conflicts) (hs : c.side = .localSide) :
    (DeskPhase.copying a remote out (onDisk l out.conflicts) todo).Spares c.spot bytes := by
  have hc : c ∈ out.conflicts := htodo.subset List.mem_cons_self
  refine ⟨fun d hd hspot => ?_, fun haside => .inr (not_overwrites (.inl ?_))⟩
  · have hnodup := (List.nodup_cons.mp ((htodo.sublist.map (·.path)).nodup hres.nodup)).1
    have hdc : d ∈ out.conflicts := htodo.subset (List.mem_cons_of_mem _ hd)
    obtain ⟨hl, hpath⟩ := Spot.mk.inj hspot
    obtain rfl := hres.eq_of_copyPath hdc hc hl hpath
    exact hnodup (List.mem_map_of_mem hd)
  · rw [show c.spot.path = c.copyPath from rfl, hres.copied c hc haside,
      hres.onDisk_get_copy hc haside hs]

end

/-- **A conflict copy keeps what is spared.** -/
theorem DeskInv.copy (h : DeskInv s) (hs : s.step device .copy = some s') : DeskInv s' := by
  obtain ⟨hspared, hmerging⟩ := h
  unfold Desk.step at hs
  dsimp only at hs
  split at hs
  · rename_i a remote out old c todo hphase
    rw [hphase] at hmerging hspared
    split at hs
    · rename_i placed hcopy
      cases hs
      obtain ⟨base, l, r, dev, stamp, hres, rfl, htodo⟩ := hmerging
      refine ⟨fun w hw => ?_, base, l, r, dev, stamp, hres, rfl, (List.suffix_cons c todo).trans htodo⟩
      obtain ⟨x, hx, hbytes, hfree, hops⟩ := hspared w hw
      have hold : x ∈ (⟨false, w.1⟩ :: c.spot :: s.copies : List Spot) := by
        rcases List.mem_cons.mp hx with rfl | hx
        · exact List.mem_cons_self
        · exact List.mem_cons_of_mem _ (List.mem_cons_of_mem _ hx)
      by_cases hsource : x.aside = false ∧ c.side = .localSide ∧ c.path = x.path
      · -- The content is copied now, and has its new place from here on.
        obtain ⟨haside, hside, hpath⟩ := hsource
        refine ⟨c.spot, by simp [Desk.spots], ?_, spares_of_copied hres htodo hside⟩
        rw [Placed.copy_bytesAt_spot hcopy hside, hpath, ← hbytes, Placed.bytesAt, haside]
        rfl
      · refine ⟨x, hold, ?_, fun d hd => hfree d (List.mem_cons_of_mem _ hd), fun haside => ?_⟩
        · rw [Placed.copy_bytesAt hcopy (hfree c List.mem_cons_self), hbytes]
        · rcases hops haside with ⟨d, hd, hside, hpath⟩ | hops
          · rcases List.mem_cons.mp hd with rfl | hd
            · exact absurd ⟨haside, hside, hpath⟩ hsource
            · exact .inl ⟨d, hd, hside, hpath⟩
          · exact .inr hops
    · cases hs
      refine ⟨fun w hw => ?_, trivial⟩
      obtain ⟨x, hx, hbytes, -⟩ := hspared w hw
      exact ⟨x, hx, hbytes, trivial⟩
  · cases hs

/-- **A step of the apply keeps what is spared.** -/
theorem DeskInv.apply (h : DeskInv s) (hs : s.step device .apply = some s') : DeskInv s' := by
  obtain ⟨hspared, hmerging⟩ := h
  unfold Desk.step at hs
  dsimp only at hs
  split at hs
  · rename_i a remote out old hphase
    cases hs
    rw [hphase] at hspared
    refine ⟨fun w hw => ?_, trivial⟩
    obtain ⟨x, hx, hbytes, -, hops⟩ := hspared w hw
    refine ⟨x, hx, hbytes, fun haside => ?_⟩
    rcases hops haside with ⟨c, hc, -⟩ | hops
    · cases hc
    · exact hops
  · rename_i a remote out old op todo hphase
    rw [hphase] at hspared
    split at hs
    · rename_i disk hrun
      cases hs
      refine ⟨fun w hw => ?_, trivial⟩
      obtain ⟨x, hx, hbytes, hops⟩ := hspared w hw
      refine ⟨x, hx, ?_, fun haside op' hop => hops haside op' (List.mem_cons_of_mem _ hop)⟩
      cases haside : x.aside with
      | true => simpa [Placed.bytesAt, haside] using hbytes
      | false =>
        simp only [Placed.bytesAt, haside] at hbytes ⊢
        exact bytes_of_not_overwrites hrun (hops haside op List.mem_cons_self) hbytes
    · cases hs
      refine ⟨fun w hw => ?_, trivial⟩
      obtain ⟨x, hx, hbytes, -⟩ := hspared w hw
      exact ⟨x, hx, hbytes, trivial⟩
  · cases hs
    refine ⟨fun w hw => ?_, trivial⟩
    obtain ⟨x, hx, hbytes, -⟩ := hspared w hw
    exact ⟨x, hx, hbytes, trivial⟩
  · cases hs

/-- **A careful merge spares what the user wrote.** -/
theorem DeskInv.merge (h : DeskInv s) (hcare : s.Careful device .merge)
    (hs : s.step device .merge = some s') : DeskInv s' := by
  unfold Desk.step at hs
  dsimp only at hs
  split at hs
  · rename_i a base head found captured hphase
    have hres := merge_result base
      { version := formatVersion, workspaceId := s.recorded.workspaceId, scannedAtSecs := a.scannedAt,
        files := captured } (head.getD (.new s.recorded.workspaceId)) device a.stamp
    split at hs
    · cases hs
      refine ⟨fun w hw => ?_, trivial⟩
      obtain ⟨x, hx, hbytes, -⟩ := h.spared w hw
      exact ⟨x, hx, hbytes, trivial⟩
    · cases hs
      refine ⟨fun w hw => ?_, _, _, _, _, _, hres, rfl, List.suffix_refl _⟩
      obtain ⟨x, hx, hbytes, hfree, hkeep⟩ := hcare a base head found captured hphase w hw
      exact ⟨x, hx, hbytes, spares_of_unreplaced hres hfree hkeep⟩
  · cases hs

/-- What the user does to a path leaves what was written to other places. -/
theorem Desk.bytesAt_of_forget {f : Option DiskFile} {w : Text × Bytes} (hw : w ∈ s.forget q)
    (hx : x ∈ s.spots w.1) (hbytes : s.placed.bytesAt x = some w.2)
    (hdisk : ∀ p : Text, disk[p]? = if q = p then f else s.placed.disk[p]?) :
    ({ s.placed with disk } : Placed).bytesAt x = some w.2 := by
  obtain ⟨aside, path⟩ := x
  cases aside with
  | true => exact hbytes
  | false =>
    have hne : q ≠ path := by
      rintro rfl
      obtain ⟨-, hkeep⟩ := List.mem_filter.mp hw
      simp only [Bool.and_eq_true, decide_eq_true_eq, Bool.not_eq_true', Bool.and_eq_false_iff,
        decide_eq_false_iff_not] at hkeep
      rcases List.mem_cons.mp hx with hx | hx
      · exact hkeep.1 (Spot.mk.inj hx).2.symm
      · exact hkeep.2.elim (fun h => h hx) fun h => h hbytes
    rw [Placed.bytesAt, ← hbytes]
    simp [Placed.bytesAt, DiskMap.bytes, hdisk, hne]

/-- **A careful write keeps what is spared**, and is spared itself. -/
theorem DeskInv.write {f : DiskFile} (h : DeskInv s) (hcare : s.Careful device (.write q f))
    (hs : s.step device (.write q f) = some s') : DeskInv s' := by
  cases hs
  refine ⟨fun w hw => ?_, h.merging⟩
  rcases List.mem_cons.mp hw with rfl | hw
  · exact ⟨⟨false, q⟩, List.mem_cons_self, by simp [Placed.bytesAt, DiskMap.bytes], hcare⟩
  · obtain ⟨x, hx, hbytes, hspares⟩ := h.spared w (List.mem_of_mem_filter hw)
    refine ⟨x, hx, ?_, hspares⟩
    exact Desk.bytesAt_of_forget hw hx hbytes fun p => Lib.getElem?_insert_eq _ _ _ p

/-- **A delete keeps what is spared**, apart from what it deletes. -/
theorem DeskInv.delete (h : DeskInv s) (hs : s.step device (.delete q) = some s') : DeskInv s' := by
  cases hs
  refine ⟨fun w hw => ?_, h.merging⟩
  obtain ⟨x, hx, hbytes, hspares⟩ := h.spared w (List.mem_of_mem_filter hw)
  refine ⟨x, hx, ?_, hspares⟩
  exact Desk.bytesAt_of_forget hw hx hbytes fun p => Lib.getElem?_erase_eq _ _ p

/-- A step that only moves the converge to a phase with nothing to do keeps what is spared. -/
theorem DeskInv.of_calm (h : DeskInv s) (hplaced : s'.placed = s.placed) (hcopies : s'.copies = s.copies)
    (hwrote : s'.wrote = s.wrote) (hcalm : ∀ x bytes, s'.phase.Spares x bytes)
    (hmerging : s'.phase.Merging) : DeskInv s' := by
  refine ⟨fun w hw => ?_, hmerging⟩
  obtain ⟨x, hx, hbytes, -⟩ := h.spared w (hwrote ▸ hw)
  exact ⟨x, by rwa [Desk.spots, hcopies], by rwa [hplaced], hcalm x w.2⟩

/-- **A careful step keeps everything the user wrote somewhere where it is spared.** -/
theorem DeskInv.step {e : DeskEvent} (h : DeskInv s) (hcare : s.Careful device e)
    (hs : s.step device e = some s') : DeskInv s' := by
  cases e with
  | write p f => exact h.write hcare hs
  | delete p => exact h.delete hs
  | merge => exact h.merge hcare hs
  | copy => exact h.copy hs
  | apply => exact h.apply hs
  | begin | publish | lose | fail | retain =>
    unfold Desk.step at hs
    dsimp only at hs
    split at hs
    all_goals cases hs
    all_goals exact h.of_calm rfl rfl rfl (fun _ _ => trivial) trivial
  | find | read =>
    unfold Desk.step at hs
    dsimp only at hs
    split at hs
    · obtain ⟨f, -, rfl⟩ := Option.map_eq_some_iff.mp hs
      exact h.of_calm rfl rfl rfl (fun _ _ => trivial) trivial
    · cases hs

end

end Pear
