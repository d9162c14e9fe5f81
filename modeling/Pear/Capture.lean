import Pear.Converge
import Pear.Scan

/-!
# Files on disk and what is recorded of them

A file on disk has bytes, permission bits and a modification time. A scan records its size, its mode
and its modification time, and its chunk list, which it makes from the bytes or takes from the manifest
of the last scan (`captureFile`, from `scan_build_manifest`). An apply writes a file from its entry's
chunks, with the permission bits of the entry's mode (`writtenFile`, from `write_file`). So a file that
was written from an entry need not be captured as that entry: `captureFile_written_iff` says when it
is.
-/

namespace Pear

/-- A modification time, with nanoseconds as the file system holds them. -/
structure FileTime where
  secs : Int
  nanos : Int
  range : 0 ≤ nanos ∧ nanos ≤ 999999999
deriving DecidableEq

/-- A whole second. -/
theorem range_zero : 0 ≤ (0 : Int) ∧ (0 : Int) ≤ 999999999 := by decide

/-- An entry's modification time, with the nanoseconds clamped (`FileTime::from_unix_time`). -/
def FileTime.ofEntry (e : FileEntry) : FileTime where
  secs := e.mtimeSecs
  nanos := clampNanos e.mtimeNanos
  range := by
    unfold clampNanos
    omega

/-- A regular file on disk. -/
structure DiskFile where
  bytes : Bytes
  mode : Nat
  mtime : FileTime
deriving DecidableEq

/-- The regular files below a workspace root, without the root `.pear`. -/
abbrev DiskMap := Std.ExtTreeMap Text DiskFile compare

/-- What one attempt of a converge finds outside its workspace: its stamp, the time its scan started at
and the one it stages files at, the chunk list an upload of given bytes returns, the chunks the relay
says it has, and the bytes behind a chunk's name. -/
structure Round where
  stamp : Text
  scannedAt : Int
  stagedAt : FileTime
  upload : Bytes → List Text
  present : Text → Bool
  data : Text → Option Bytes

/-! ## Capturing a file -/

/-- How much older than the last scan a file must be for its chunk list to be reused
(`CACHE_SETTLE_SECS`). -/
def cacheSettleSecs : Int := 2

/-- The permission bits a scan records of a mode (`md.mode() & 0o7777`). -/
def unixMode (mode : Nat) : Nat := mode &&& 0o7777

/-- The recorded entry's chunk list can be reused for a file (the cache rule of
`scan_build_manifest`). -/
def reusable (present : Text → Bool) (scannedAt : Int) (f : DiskFile) (e : FileEntry) : Bool :=
  e.size = f.bytes.length && e.mtimeSecs = f.mtime.secs && e.mtimeNanos = f.mtime.nanos &&
    f.mtime.secs + cacheSettleSecs ≤ scannedAt && e.chunks.all present

/-- The entry a scan makes of a file, over the entry the last scan recorded for its path. -/
def captureFile (a : Round) (scannedAt : Int) (recorded : Option FileEntry) (f : DiskFile) :
    FileEntry where
  size := f.bytes.length
  mode := unixMode f.mode
  mtimeSecs := f.mtime.secs
  mtimeNanos := f.mtime.nanos
  chunks := match recorded with
    | some e => if reusable a.present scannedAt f e then e.chunks else a.upload f.bytes
    | none => a.upload f.bytes

/-- The bytes of the files of a tree. -/
def DiskMap.bytes (disk : DiskMap) (path : Text) : Option Bytes := disk[path]?.map (·.bytes)

/-- The manifest a scan builds (`scan_build_manifest`, where every file can be read and uploaded). -/
def captureTree (R : ScanRules) (a : Round) (recorded : Manifest) (disk : DiskMap) : Manifest where
  version := formatVersion
  workspaceId := recorded.workspaceId
  scannedAtSecs := a.scannedAt
  files := disk.filterMap fun path f =>
    if R.captures disk.bytes path then
      some (captureFile a recorded.scannedAtSecs recorded.files[path]? f)
    else none

/-- The chunk list of a recorded entry stands when its file is captured again: it can be reused, or is
what an upload of the bytes returns. -/
def ChunksStand (a : Round) (scannedAt : Int) (e : FileEntry) (bytes : Bytes) : Prop :=
  e.mtimeSecs + cacheSettleSecs ≤ scannedAt ∧ e.chunks.all a.present = true ∨
    a.upload bytes = e.chunks

section
variable {a : Round} {scannedAt : Int} {e : FileEntry} {f : DiskFile}

/-- What a scan records at a path. -/
theorem captureTree_get (R : ScanRules) (a : Round) (recorded : Manifest) (disk : DiskMap)
    (q : Text) : (captureTree R a recorded disk).files[q]? = disk[q]?.bind fun f =>
      if R.captures disk.bytes q then
        some (captureFile a recorded.scannedAtSecs recorded.files[q]? f)
      else none := by
  rw [captureTree, Std.ExtTreeMap.getElem?_filterMap']

/-- **A file is captured as the recorded entry** when they agree field by field and the chunk list
stands. -/
theorem captureFile_eq_iff : captureFile a scannedAt (some e) f = e ↔
    e.size = f.bytes.length ∧ e.mode = unixMode f.mode ∧ e.mtimeSecs = f.mtime.secs ∧
      e.mtimeNanos = f.mtime.nanos ∧ ChunksStand a scannedAt e f.bytes := by
  obtain ⟨size, mode, secs, nanos, chunks⟩ := e
  simp only [captureFile, FileEntry.mk.injEq, ChunksStand]
  constructor
  · rintro ⟨hsize, hmode, hsecs, hnanos, hchunks⟩
    refine ⟨hsize.symm, hmode.symm, hsecs.symm, hnanos.symm, ?_⟩
    split at hchunks
    · rename_i hre
      simp only [reusable, Bool.and_eq_true, decide_eq_true_eq] at hre
      exact .inl ⟨hsecs ▸ hre.1.2, hre.2⟩
    · exact .inr hchunks
  · rintro ⟨hsize, hmode, hsecs, hnanos, hstand⟩
    refine ⟨hsize.symm, hmode.symm, hsecs.symm, hnanos.symm, ?_⟩
    split
    · rfl
    · rename_i hre
      rcases hstand with ⟨hsettled, hall⟩ | hup
      · refine absurd ?_ hre
        simp only [reusable, Bool.and_eq_true, decide_eq_true_eq]
        exact ⟨⟨⟨⟨hsize, hsecs⟩, hnanos⟩, hsecs ▸ hsettled⟩, hall⟩
      · exact hup

end

/-! ## Writing files -/

/-- The bytes of a chunk list, which some chunk may be missing for. -/
def assemble (data : Text → Option Bytes) (chunks : List Text) : Option Bytes :=
  (chunks.mapM data).map List.flatten

/-- A file staged from an entry (`write_file` up to the rename). -/
def stagedFile (a : Round) (e : FileEntry) (mtime : FileTime) : Option DiskFile :=
  (assemble a.data e.chunks).map fun bytes => { bytes, mode := e.mode &&& 0o777, mtime }

/-- The file a write of an entry leaves. -/
def writtenFile (a : Round) (e : FileEntry) : Option DiskFile := stagedFile a e (.ofEntry e)

/-- What a step of an apply does to the file at its path; it fails when a chunk is missing. -/
def TreeOp.file (a : Round) : TreeOp → Option DiskFile → Option (Option DiskFile)
  | .delete _, _ => some none
  | .rename _ e, _ => (stagedFile a e a.stagedAt).map some
  | .setMtime _ e, old => some (old.map fun f => { f with mtime := .ofEntry e })

/-- A disk after a step of an apply. -/
def TreeOp.runOn (a : Round) (disk : DiskMap) (op : TreeOp) : Option DiskMap :=
  (op.file a disk[op.path]?).map fun
    | some f => disk.insert op.path f
    | none => disk.erase op.path

/-- Copy a local loser aside, or assemble a remote one that stays out of the tree. Copies below `.pear`
are not in the map; they fail as the others do. -/
def copyFile (a : Round) (disk : DiskMap) (c : ConflictCopy) : Option DiskMap :=
  match c.localOnly, c.side with
  | true, .localSide => disk[c.path]?.map fun _ => disk
  | true, .remoteSide => (assemble a.data c.entry.chunks).map fun _ => disk
  | false, .localSide => disk[c.path]?.map fun f =>
    disk.insert c.copyPath { f with mtime := .ofEntry c.entry }
  | false, .remoteSide => some disk

section
variable {a : Round} {disk disk' : DiskMap} {op : TreeOp} {q : Text}

/-- A step of an apply changes its own path only. -/
theorem TreeOp.runOn_get (h : op.runOn a disk = some disk') (q : Text) :
    (if op.path = q then op.file a disk[q]? else some disk[q]?) = some disk'[q]? := by
  obtain ⟨f, hf, rfl⟩ := Option.map_eq_some_iff.mp h
  by_cases hq : op.path = q
  · subst hq
    rw [if_pos rfl, hf]
    cases f <;> simp
  · rw [if_neg hq]
    cases f with
    | none => rw [Lib.getElem?_erase_eq, if_neg hq]
    | some f => rw [Lib.getElem?_insert_eq, if_neg hq]

/-- At one path, the steps of an apply act through the steps on that path. -/
theorem foldlM_runOn_get (q : Text) : ∀ {ops : List TreeOp} {disk disk' : DiskMap},
    ops.foldlM (TreeOp.runOn a) disk = some disk' →
    (ops.filter (·.path = q)).foldlM (fun f op => op.file a f) disk[q]? = some disk'[q]?
  | [], disk, disk', h => by
    cases h
    rfl
  | op :: ops, disk, disk', h => by
    obtain ⟨disk₁, hop, h⟩ := Option.bind_eq_some_iff.mp h
    have hget := op.runOn_get hop q
    have ih := foldlM_runOn_get q h
    by_cases hq : op.path = q
    · rw [if_pos hq] at hget
      rw [List.filter_cons_of_pos (by simpa using hq), List.foldlM_cons, hget]
      exact ih
    · rw [if_neg hq, Option.some.injEq] at hget
      rw [List.filter_cons_of_neg (by simpa using hq), hget]
      exact ih

/-- The two steps of a write leave the written file. -/
theorem foldlM_writeOps {e : FileEntry} {f f' : Option DiskFile}
    (h : [TreeOp.rename q e, .setMtime q e].foldlM (fun f op => op.file a f) f = some f') :
    ∃ x, writtenFile a e = some x ∧ f' = some x := by
  simp only [List.foldlM_cons, List.foldlM_nil, TreeOp.file, stagedFile, Option.bind_eq_bind,
    Option.map_map] at h
  unfold writtenFile stagedFile
  cases hb : assemble a.data e.chunks with
  | none => simp [hb] at h
  | some bytes =>
    simp only [hb, Option.map_some, Option.bind_some, Function.comp, Option.pure_def,
      Option.some.injEq] at h
    exact ⟨_, rfl, h.symm⟩

/-- **What an apply leaves at a path**: what was there where the maps agree, and elsewhere the file
the new entry is written as, or none. -/
theorem applyOn_get {old new : FileMap}
    (h : (applyOps old new).foldlM (TreeOp.runOn a) disk = some disk') (q : Text) :
    new[q]? = old[q]? ∧ disk'[q]? = disk[q]? ∨
      new[q]? ≠ old[q]? ∧ (new[q]? = none ∧ disk'[q]? = none ∨
        ∃ e f, new[q]? = some e ∧ writtenFile a e = some f ∧ disk'[q]? = some f) := by
  have hfold := foldlM_runOn_get q h
  rw [applyOps_at] at hfold
  by_cases ho : new[q]? = old[q]?
  · rw [if_pos ho] at hfold
    exact .inl ⟨ho, (Option.some.inj hfold).symm⟩
  rw [if_neg ho] at hfold
  cases hn : new[q]? with
  | none =>
    rw [if_pos hn] at hfold
    exact .inr ⟨hn ▸ ho, .inl ⟨rfl, (Option.some.inj hfold).symm⟩⟩
  | some e =>
    rw [if_neg (by simp [hn]), writeOps, hn] at hfold
    obtain ⟨f, hf, hd⟩ := foldlM_writeOps hfold
    exact .inr ⟨hn ▸ ho, .inr ⟨e, f, rfl, hf, hd⟩⟩

/-- A copy puts one file into the tree or none. -/
theorem copyFile_get {c : ConflictCopy} (h : copyFile a disk c = some disk') (q : Text) :
    ¬(c.localOnly = false ∧ c.side = .localSide ∧ c.copyPath = q) ∧ disk'[q]? = disk[q]? ∨
      (c.localOnly = false ∧ c.side = .localSide ∧ c.copyPath = q) ∧
        ∃ f, disk[c.path]? = some f ∧ disk'[q]? = some { f with mtime := .ofEntry c.entry } := by
  unfold copyFile at h
  split at h
  · rename_i hl hs
    obtain ⟨f, -, rfl⟩ := Option.map_eq_some_iff.mp h
    exact .inl ⟨fun hc => Bool.noConfusion (hl.symm.trans hc.1), rfl⟩
  · rename_i hl hs
    obtain ⟨bytes, -, rfl⟩ := Option.map_eq_some_iff.mp h
    exact .inl ⟨fun hc => Bool.noConfusion (hl.symm.trans hc.1), rfl⟩
  · rename_i hl hs
    obtain ⟨f, hf, rfl⟩ := Option.map_eq_some_iff.mp h
    by_cases hq : c.copyPath = q
    · exact .inr ⟨⟨hl, hs, hq⟩, f, hf, by rw [Lib.getElem?_insert_eq, if_pos hq]⟩
    · exact .inl ⟨fun hc => hq hc.2.2, by rw [Lib.getElem?_insert_eq, if_neg hq]⟩
  · rename_i hl hs
    cases h
    exact .inl ⟨fun hc => ConflictSide.noConfusion (hs.symm.trans hc.2.1), rfl⟩

/-- **What the copies leave at a path**: what was there, or the copy of a local loser. -/
theorem copyFiles_get (q : Text) : ∀ {cs : List ConflictCopy} {disk disk' : DiskMap},
    cs.foldlM (copyFile a) disk = some disk' →
    (∀ c ∈ cs, ∀ d ∈ cs, c.localOnly = false → c.copyPath ≠ d.path) →
    (∀ c ∈ cs, ¬(c.localOnly = false ∧ c.side = .localSide ∧ c.copyPath = q)) ∧
        disk'[q]? = disk[q]? ∨
      ∃ c ∈ cs, (c.localOnly = false ∧ c.side = .localSide ∧ c.copyPath = q) ∧
        ∃ f, disk[c.path]? = some f ∧ disk'[q]? = some { f with mtime := .ofEntry c.entry }
  | [], disk, disk', h, _ => by
    cases h
    exact .inl ⟨nofun, rfl⟩
  | c :: cs, disk, disk', h, hne => by
    obtain ⟨disk₁, hc, h⟩ := Option.bind_eq_some_iff.mp h
    have ih := copyFiles_get q h fun d hd d' hd' =>
      hne d (List.mem_cons_of_mem _ hd) d' (List.mem_cons_of_mem _ hd')
    rcases ih with ⟨hnone, hget⟩ | ⟨d, hd, hhit, f, hf, hget⟩
    · rcases copyFile_get hc q with ⟨hmiss, hget'⟩ | ⟨hhit, f, hf, hget'⟩
      · refine .inl ⟨fun d hd => ?_, hget.trans hget'⟩
        rcases List.mem_cons.mp hd with rfl | hd
        · exact hmiss
        · exact hnone d hd
      · exact .inr ⟨c, List.mem_cons_self, hhit, f, hf, hget.trans hget'⟩
    · refine .inr ⟨d, List.mem_cons_of_mem _ hd, hhit, f, ?_, hget⟩
      -- The earlier copy is not made over this loser.
      rcases copyFile_get hc d.path with ⟨-, hsrc⟩ | ⟨hhit', -⟩
      · exact hsrc.symm.trans hf
      · exact absurd hhit'.2.2 (hne c List.mem_cons_self d (List.mem_cons_of_mem _ hd) hhit'.1)

/-- Clamping leaves what is in range. -/
theorem clampNanos_eq_iff {n : Int} : clampNanos n = n ↔ 0 ≤ n ∧ n ≤ 999999999 := by
  unfold clampNanos
  omega

end

end Pear
