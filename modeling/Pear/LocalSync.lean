import Pear.Converge.Fixpoint
import Pear.Mirror
import Pear.Disk.Fold
import Pear.Lib.Runs

/-!
# Syncing one folder into another

`sync_cycle` captures the source, puts the chunks of what it read into the target's store, and applies
the capture to the target with the set-id and sticky bits masked. The source records the capture as it
is, the target the masked one. Here are the two folders with their stores, the cycle, and what every
history of cycles from one folder into another keeps: the target holds exactly what it records, and it
records what a scan would read (`SyncPair.Inv`).

A cycle the other way is meant to find nothing to do. It compares a scan of the target, which never has
the masked bits, with what the source records, which has them. `reverse_quiet_iff` says when it finds
nothing, and when the cycle after it finds nothing either.
-/

namespace Pear

/-! ## Chunks and stores -/

/-- The chunker, and the hash that names its chunks. Both are third-party code. -/
structure Chunker where
  split : Bytes → List Bytes
  hash : Bytes → Text

/-- What is relied on of them: the chunks are the bytes in order, and different chunks have different
names. -/
structure Chunker.Lawful (C : Chunker) : Prop where
  flatten : ∀ bytes, (C.split bytes).flatten = bytes
  injective : Function.Injective C.hash

/-- The chunk list of a file's bytes. -/
def Chunker.names (C : Chunker) (bytes : Bytes) : List Text := (C.split bytes).map C.hash

/-- The chunks of a local store, by their names. -/
abbrev ChunkStore := Std.ExtTreeMap Text Bytes compare

/-- Read a chunk; one that does not hash to its name is missing (`LocalStore::get`). -/
def readChunk (C : Chunker) (store : ChunkStore) (hash : Text) : Option Bytes :=
  store[hash]?.filter (C.hash · = hash)

/-- A store during a cycle, with what the cycle has put there. -/
structure Uploads where
  store : ChunkStore
  chunksUploaded : Nat
  bytesUploaded : Nat

/-- Put a chunk that is absent. -/
def Uploads.put (C : Chunker) (u : Uploads) (chunk : Bytes) : Uploads :=
  if u.store.contains (C.hash chunk) then u
  else
    { store := u.store.insert (C.hash chunk) chunk
      chunksUploaded := u.chunksUploaded + 1
      bytesUploaded := u.bytesUploaded + chunk.length }

/-- Put the chunks of a file (`chunk_and_upload`). -/
def chunkAndUpload (C : Chunker) (u : Uploads) (bytes : Bytes) : Uploads :=
  (C.split bytes).foldl (Uploads.put C) u

/-- Delete the chunks that are not kept, as far as the sweep gets (`sweep_unreferenced`). -/
def sweepUnreferenced (reaches : Text → Bool) (keep : List Text) (store : ChunkStore) : ChunkStore :=
  store.filter fun hash _ => hash ∈ keep || !reaches hash

/-! ## The cycle -/

/-- A folder that local syncs read or write: its files, its `.pear/manifest.json` and its store. One
without a manifest has an empty one. -/
structure Folder extends Site where
  store : ChunkStore

/-- What a cycle finds outside its folders: the time its scan starts at, the one it stages files at, and
the chunks its sweep reaches. -/
structure Moment where
  scannedAt : Int
  stagedAt : FileTime
  reaches : Text → Bool

/-- What a cycle reports. -/
structure CycleReport where
  written : List Text
  deleted : List Text
  chunksUploaded : Nat
  bytesUploaded : Nat
deriving DecidableEq

section
variable (R : ScanRules) (C : Chunker) (m : Moment) (source target : Folder)

/-- The scan reuses the chunk list recorded for a file. -/
def Folder.reuses (p : Text) (f : DiskFile) : Bool :=
  match source.recorded.files[p]? with
  | some e => reusable target.store.contains source.recorded.scannedAtSecs f e
  | none => false

/-- The target's store after the scan: with the chunks of every captured file that was read. -/
def Folder.uploads : Uploads :=
  source.disk.toList.foldl (fun u (p, f) =>
      if R.captures source.disk.bytes p && !source.reuses target p f then chunkAndUpload C u f.bytes
      else u)
    ⟨target.store, 0, 0⟩

/-- The cycle's scan and apply, as a round between the source and the target's store. -/
def Folder.round : Round where
  stamp := []
  scannedAt := m.scannedAt
  stagedAt := m.stagedAt
  upload := C.names
  present := target.store.contains
  data := readChunk C (source.uploads R C target).store

/-- The manifest the scan builds, which the source records. -/
def Folder.build : Manifest :=
  captureTree R (source.round R C m target) source.recorded source.disk

/-- The manifest that is applied to the target and recorded there. -/
def Folder.forTarget : Manifest :=
  { source.build R C m target with files := maskModes (source.build R C m target).files }

/-- One cycle (`sync_cycle`), with the source and the target it leaves; `none` when it fails. -/
def syncCycle (lower : Text → Text) : Option (Folder × Folder × CycleReport) :=
  let u := source.uploads R C target
  let forTarget := source.forTarget R C m target
  match validate source.recorded, validate target.recorded, validate forTarget,
      collision lower [] forTarget.files.keys with
  | .ok (), .ok (), .ok (), none =>
    let ops := applyOps target.recorded.files forTarget.files
    (ops.foldlM (TreeOp.runOn (source.round R C m target)) target.disk).map fun disk =>
      let d := diff target.recorded.files forTarget.files
      let writes := d.added ++ d.changed
      let report : CycleReport := {
        written := writes.filter (!isGitPath ·) ++ writes.filter isGitPath
        deleted := d.deleted.filter (!isGitPath ·) ++ d.deleted.filter isGitPath
        chunksUploaded := u.chunksUploaded
        bytesUploaded := u.bytesUploaded }
      let store :=
        if report.written ≠ [] ∨ report.deleted ≠ [] ∨ 0 < report.chunksUploaded then
          sweepUnreferenced m.reaches (forTarget.files.toList.flatMap (·.2.chunks)) u.store
        else u.store
      ({ source with recorded := source.build R C m target },
        { disk, recorded := forTarget, store }, report)
  | _, _, _, _ => none

end

/-! ## What is stored -/

/-- Every chunk of a store hashes to its name. -/
def Verified (C : Chunker) (store : ChunkStore) : Prop :=
  ∀ (h : Text) (d : Bytes), store[h]? = some d → C.hash d = h

/-- A store has every chunk of some bytes. -/
def HasChunks (C : Chunker) (store : ChunkStore) (bytes : Bytes) : Prop :=
  ∀ h ∈ C.names bytes, store.contains h = true

section
variable {C : Chunker} {store : ChunkStore} {u : Uploads} {data : Text → Option Bytes} {b b' : Bytes}

/-- Bytes with the same chunk list are the same. -/
theorem Chunker.Lawful.eq_of_names (hC : C.Lawful) (h : C.names b = C.names b') : b = b' := by
  have hsplit := List.map_injective_iff.mpr hC.injective h
  rw [← hC.flatten b, hsplit, hC.flatten]

/-- A chunk that is read hashes to its name. -/
theorem hash_of_readChunk {h : Text} {d : Bytes} (hr : readChunk C store h = some d) :
    C.hash d = h := by
  have hf := Option.filter_eq_some_iff.mp hr
  exact of_decide_eq_true hf.2

/-- What chunk lists are read back as, where every chunk read hashes to its name. -/
theorem mapM_names (hC : C.Lawful) (hd : ∀ h d, data h = some d → C.hash d = h) :
    ∀ {cs cs' : List Bytes}, (cs.map C.hash).mapM data = some cs' → cs' = cs
  | [], cs', h => by
    cases h
    rfl
  | c :: cs, cs', h => by
    rw [List.map_cons, List.mapM_cons] at h
    obtain ⟨d, hread, h⟩ := Option.bind_eq_some_iff.mp h
    obtain ⟨ds, hrest, h⟩ := Option.bind_eq_some_iff.mp h
    cases h
    rw [hC.injective (hd _ _ hread), mapM_names hC hd hrest]

/-- Assembling the chunk list of some bytes gives these bytes, if anything. -/
theorem eq_of_assemble (hC : C.Lawful) (hd : ∀ h d, data h = some d → C.hash d = h)
    (h : assemble data (C.names b) = some b') : b' = b := by
  obtain ⟨cs, hcs, rfl⟩ := Option.map_eq_some_iff.mp h
  rw [mapM_names hC hd hcs, hC.flatten]

/-- A verified store with the chunks of some bytes gives them back. -/
theorem assemble_of_hasChunks (hC : C.Lawful) (hv : Verified C store) (h : HasChunks C store b) :
    assemble (readChunk C store) (C.names b) = some b := by
  have hread : ∀ cs : List Bytes, (∀ c ∈ cs, store.contains (C.hash c) = true) →
      (cs.map C.hash).mapM (readChunk C store) = some cs := by
    intro cs
    induction cs with
    | nil => exact fun _ => rfl
    | cons c cs ih =>
      intro hcs
      obtain ⟨d, hd⟩ := Option.isSome_iff_exists.mp
        ((Std.ExtTreeMap.contains_eq_isSome_getElem?).symm.trans (hcs c List.mem_cons_self))
      obtain rfl := hC.injective (hv _ _ hd)
      have hc : readChunk C store (C.hash d) = some d := by
        rw [readChunk, hd]
        simp
      rw [List.map_cons, List.mapM_cons, hc, ih fun c hc => hcs c (List.mem_cons_of_mem _ hc)]
      rfl
  rw [assemble, Chunker.names, hread _ fun c hc => h _ (List.mem_map_of_mem hc), Option.map_some,
    hC.flatten]

/-- What putting a chunk leaves in the store. -/
theorem Uploads.put_store (u : Uploads) (c : Bytes) (h : Text) :
    (u.put C c).store[h]? = if C.hash c = h ∧ u.store[h]? = none then some c else u.store[h]? := by
  unfold put
  split
  · rename_i hin
    rw [Std.ExtTreeMap.contains_eq_isSome_getElem?] at hin
    rw [if_neg]
    rintro ⟨rfl, hnone⟩
    rw [hnone] at hin
    cases hin
  · rename_i hout
    rw [Std.ExtTreeMap.contains_eq_isSome_getElem?, Option.not_isSome_iff_eq_none] at hout
    dsimp only
    rw [Lib.getElem?_insert_eq]
    by_cases hh : C.hash c = h
    · subst hh
      rw [if_pos rfl, if_pos ⟨rfl, hout⟩]
    · rw [if_neg hh, if_neg fun hc => hh hc.1]

/-- A later state of a store: verified as before, and no chunk is gone. -/
structure Grown (C : Chunker) (store store' : ChunkStore) : Prop where
  verified : Verified C store → Verified C store'
  has : ∀ h, store.contains h = true → store'.contains h = true

theorem Grown.refl (C : Chunker) (store : ChunkStore) : Grown C store store := ⟨id, fun _ => id⟩

theorem Grown.trans {s₁ s₂ s₃ : ChunkStore} (h : Grown C s₁ s₂) (h' : Grown C s₂ s₃) :
    Grown C s₁ s₃ :=
  ⟨h'.verified ∘ h.verified, fun x hx => h'.has x (h.has x hx)⟩

/-- A put keeps what is there and adds its chunk. -/
theorem Uploads.put_grown (u : Uploads) (c : Bytes) :
    Grown C u.store (u.put C c).store ∧ (u.put C c).store.contains (C.hash c) = true := by
  refine ⟨⟨fun hv h d hd => ?_, fun h hin => ?_⟩, ?_⟩
  · rw [u.put_store] at hd
    split at hd
    · rename_i hc
      cases hd
      exact hc.1
    · exact hv h d hd
  · rw [Std.ExtTreeMap.contains_eq_isSome_getElem?] at hin ⊢
    rw [u.put_store]
    split
    · rfl
    · exact hin
  · rw [Std.ExtTreeMap.contains_eq_isSome_getElem?, u.put_store]
    cases hc : u.store[C.hash c]? with
    | none => rw [if_pos ⟨rfl, rfl⟩, Option.isSome_some]
    | some d => rw [if_neg fun hn => Option.some_ne_none d hn.2, Option.isSome_some]

/-- Uploading chunks keeps what is there and adds them. -/
theorem foldl_put_grown : ∀ (cs : List Bytes) (u : Uploads),
    Grown C u.store (cs.foldl (Uploads.put C) u).store ∧
      ∀ c ∈ cs, (cs.foldl (Uploads.put C) u).store.contains (C.hash c) = true
  | [], u => ⟨.refl C u.store, nofun⟩
  | c :: cs, u => by
    obtain ⟨hput, hmem⟩ := u.put_grown (C := C) c
    obtain ⟨hgrown, hall⟩ := foldl_put_grown cs (u.put C c)
    refine ⟨hput.trans hgrown, fun d hd => ?_⟩
    rcases List.mem_cons.mp hd with rfl | hd
    · exact hgrown.has _ hmem
    · exact hall d hd

/-- Uploading a file keeps what is there and adds its chunks. -/
theorem chunkAndUpload_grown (u : Uploads) (b : Bytes) :
    Grown C u.store (chunkAndUpload C u b).store ∧ HasChunks C (chunkAndUpload C u b).store b := by
  obtain ⟨hgrown, hall⟩ := foldl_put_grown (C := C) (C.split b) u
  refine ⟨hgrown, fun h hh => ?_⟩
  obtain ⟨c, hc, rfl⟩ := List.mem_map.mp hh
  exact hall c hc

end

section
variable {R : ScanRules} {C : Chunker} {m : Moment} {source target : Folder} {p : Text} {f : DiskFile}

/-- The scan keeps what is in the target's store, and adds the chunks of every captured file it reads. -/
theorem Folder.uploads_grown (R : ScanRules) (C : Chunker) (source target : Folder) :
    Grown C target.store (source.uploads R C target).store ∧
      ∀ p f, source.disk[p]? = some f → R.captures source.disk.bytes p = true →
        source.reuses target p f = false → HasChunks C (source.uploads R C target).store f.bytes := by
  have hfold : ∀ (files : List (Text × DiskFile)) (u : Uploads),
      let u' := files.foldl (fun u (p, f) =>
        if R.captures source.disk.bytes p && !source.reuses target p f then chunkAndUpload C u f.bytes
        else u) u
      Grown C u.store u'.store ∧ ∀ p f, (p, f) ∈ files → R.captures source.disk.bytes p = true →
        source.reuses target p f = false → HasChunks C u'.store f.bytes := by
    intro files
    induction files with
    | nil => exact fun u => ⟨.refl C u.store, nofun⟩
    | cons x files ih =>
      intro u
      obtain ⟨p, f⟩ := x
      rw [List.foldl_cons]
      dsimp only
      by_cases hread : (R.captures source.disk.bytes p && !source.reuses target p f) = true
      · rw [if_pos hread]
        obtain ⟨hfirst, hhas⟩ := chunkAndUpload_grown (C := C) u f.bytes
        obtain ⟨hgrown, hall⟩ := ih (chunkAndUpload C u f.bytes)
        refine ⟨hfirst.trans hgrown, fun q g hq hcap hre => ?_⟩
        rcases List.mem_cons.mp hq with hq | hq
        · cases hq
          exact fun h hh => hgrown.has h (hhas h hh)
        · exact hall q g hq hcap hre
      · rw [if_neg hread]
        obtain ⟨hgrown, hall⟩ := ih u
        refine ⟨hgrown, fun q g hq hcap hre => ?_⟩
        rcases List.mem_cons.mp hq with hq | hq
        · cases hq
          simp [hcap, hre] at hread
        · exact hall q g hq hcap hre
  obtain ⟨hgrown, hall⟩ := hfold source.disk.toList ⟨target.store, 0, 0⟩
  exact ⟨hgrown, fun p f hf => hall p f (Std.ExtTreeMap.mem_toList_iff_getElem?_eq_some.mpr hf)⟩

/-- What the scan records at a path. -/
theorem Folder.build_get (p : Text) : (source.build R C m target).files[p]? =
    source.disk[p]?.bind fun f => if R.captures source.disk.bytes p then
      some (captureFile (source.round R C m target) source.recorded.scannedAtSecs
        source.recorded.files[p]? f) else none :=
  captureTree_get R _ _ _ p

end

/-! ## What a history of cycles keeps -/

/-- The entry a scan makes of a file that it reads. -/
def Chunker.entry (C : Chunker) (f : DiskFile) : FileEntry where
  size := f.bytes.length
  mode := unixMode f.mode
  mtimeSecs := f.mtime.secs
  mtimeNanos := f.mtime.nanos
  chunks := C.names f.bytes

/-- Every entry has the chunk list of some bytes of its size. -/
def Genuine (C : Chunker) (files : FileMap) : Prop :=
  ∀ (p : Text) (e : FileEntry), files[p]? = some e → ∃ b, b.length = e.size ∧ C.names b = e.chunks

/-- A target between cycles: what it holds is what it records. -/
structure Folder.InStep (C : Chunker) (target : Folder) : Prop where
  verified : Verified C target.store
  recorded : ∀ p : Text, target.recorded.files[p]? = target.disk[p]?.map C.entry

section
variable (R : ScanRules) (C : Chunker) (m : Moment) (source target : Folder)

/-- The bytes that the scan's chunk list for a captured file stands for: those of the file, or those
the target's store has for a reused list. -/
def Folder.sent (p : Text) : Option Bytes :=
  source.disk[p]?.bind fun f =>
    if R.captures source.disk.bytes p then
      if source.reuses target p f then
        source.recorded.files[p]?.bind fun e => assemble (readChunk C target.store) e.chunks
      else some f.bytes
    else none

end

section
variable {R : ScanRules} {C : Chunker} {m : Moment} {source target : Folder} {p : Text} {f : DiskFile}
  {e : FileEntry} {lower : Text → Text}

/-- What the scan has at a path: nothing, or the entry of a captured file with the chunk list of the
bytes it sends. -/
inductive Folder.Scanned (R : ScanRules) (C : Chunker) (m : Moment) (source target : Folder) (p : Text) :
    Prop
  | none (hbuild : (source.build R C m target).files[p]? = Option.none)
      (hsent : source.sent R C target p = Option.none)
      (hdisk : ∀ f, source.disk[p]? = some f → R.captures source.disk.bytes p = false)
  | some {f : DiskFile} {b : Bytes} (hdisk : source.disk[p]? = Option.some f)
      (hcap : R.captures source.disk.bytes p = true) (hsent : source.sent R C target p = Option.some b)
      (hlen : b.length = f.bytes.length)
      (hbuild : (source.build R C m target).files[p]? =
        Option.some { C.entry f with chunks := C.names b })
      (hhas : HasChunks C (source.uploads R C target).store b)

/-- **What the scan has at a path.** -/
theorem Folder.scanned (hC : C.Lawful) (hgen : Genuine C source.recorded.files)
    (hv : Verified C target.store) (m : Moment) (p : Text) : Scanned R C m source target p := by
  have hbuild : (source.build R C m target).files[p]? = _ := build_get p
  cases hf : source.disk[p]? with
  | none =>
    rw [hf] at hbuild
    exact .none hbuild (by rw [sent, hf, Option.bind_none]) fun f h => nomatch hf.symm.trans h
  | some f =>
    rw [hf, Option.bind_some] at hbuild
    cases hcap : R.captures source.disk.bytes p with
    | false =>
      rw [hcap, if_neg Bool.false_ne_true] at hbuild
      refine .none hbuild ?_ fun _ _ => hcap
      rw [sent, hf, Option.bind_some, hcap, if_neg Bool.false_ne_true]
    | true =>
      rw [hcap, if_pos rfl] at hbuild
      obtain ⟨hgrown, hread⟩ := uploads_grown R C source target
      cases hre : source.reuses target p f with
      | false =>
        have hsent : source.sent R C target p = some f.bytes := by
          rw [sent, hf, Option.bind_some, hcap, if_pos rfl, hre, if_neg Bool.false_ne_true]
        refine .some hf hcap hsent rfl (hbuild.trans ?_) (hread p f hf hcap hre)
        unfold reuses at hre
        unfold captureFile
        split
        · rename_i e he
          rw [he] at hre
          dsimp only at hre
          rw [if_neg (by simpa [round] using hre)]
          rfl
        · rfl
      | true =>
        have hsent : source.sent R C target p =
            source.recorded.files[p]?.bind fun e => assemble (readChunk C target.store) e.chunks := by
          rw [sent, hf, Option.bind_some, hcap, if_pos rfl, hre, if_pos rfl]
        unfold reuses at hre
        split at hre
        · rename_i e he
          obtain ⟨b, hlen, hnames⟩ := hgen p e he
          have hre' := hre
          simp only [reusable, Bool.and_eq_true, decide_eq_true_eq] at hre'
          have hhas : HasChunks C target.store b := by
            intro h hh
            exact List.all_eq_true.mp hre'.2 h (hnames ▸ hh)
          rw [he, Option.bind_some, ← hnames, assemble_of_hasChunks hC hv hhas] at hsent
          refine .some hf hcap hsent (hlen.trans hre'.1.1.1.1) (hbuild.trans ?_)
            fun h hh => hgrown.has h (hhas h hh)
          rw [he]
          unfold captureFile
          dsimp only
          rw [if_pos (by simpa [round] using hre), hnames]
          rfl
        · cases hre

/-- A cycle that completed. -/
structure Synced (R : ScanRules) (C : Chunker) (m : Moment) (lower : Text → Text)
    (source target source' target' : Folder) : Prop where
  validSource : validate source.recorded = .ok ()
  validTarget : validate target.recorded = .ok ()
  validNew : validate (source.forTarget R C m target) = .ok ()
  apart : collision lower [] (source.forTarget R C m target).files.keys = none
  source_eq : source' = { source with recorded := source.build R C m target }
  recorded : target'.recorded = source.forTarget R C m target
  disk : (applyOps target.recorded.files (source.forTarget R C m target).files).foldlM
    (TreeOp.runOn (source.round R C m target)) target.disk = some target'.disk
  verified : Verified C target.store → Verified C target'.store
  /-- The sweep keeps what the recorded manifest names. -/
  kept : ∀ (p : Text) (e : FileEntry), target'.recorded.files[p]? = some e → ∀ h ∈ e.chunks,
    (source.uploads R C target).store.contains h = true → target'.store.contains h = true

/-- A sweep keeps verified chunks. -/
theorem Verified.sweep {store : ChunkStore} (h : Verified C store) (reaches : Text → Bool)
    (keep : List Text) : Verified C (sweepUnreferenced reaches keep store) := by
  intro x d hd
  rw [sweepUnreferenced, Std.ExtTreeMap.getElem?_filter'] at hd
  exact h x d (Option.filter_eq_some_iff.mp hd).1

/-- A sweep leaves what is to be kept. -/
theorem contains_sweep {store : ChunkStore} {reaches : Text → Bool} {keep : List Text} {h : Text}
    (hk : h ∈ keep) (hin : store.contains h = true) :
    (sweepUnreferenced reaches keep store).contains h = true := by
  rw [Std.ExtTreeMap.contains_eq_isSome_getElem?] at hin ⊢
  obtain ⟨d, hd⟩ := Option.isSome_iff_exists.mp hin
  rw [sweepUnreferenced, Std.ExtTreeMap.getElem?_filter', hd]
  simp [hk]

/-- What a cycle that completes has done. -/
theorem synced_of_syncCycle {source' target' : Folder} {r : CycleReport}
    (h : syncCycle R C m source target lower = some (source', target', r)) :
    Synced R C m lower source target source' target' := by
  unfold syncCycle at h
  dsimp only at h
  split at h
  · rename_i hs ht hn hc
    obtain ⟨disk, hdisk, h⟩ := Option.map_eq_some_iff.mp h
    cases h
    have hgrown := (Folder.uploads_grown R C source target).1
    refine ⟨hs, ht, hn, hc, rfl, rfl, hdisk, fun hv => ?_, fun p e he h hh hin => ?_⟩
    · dsimp only
      split
      · exact (hgrown.verified hv).sweep _ _
      · exact hgrown.verified hv
    · dsimp only at he ⊢
      split
      · refine contains_sweep (List.mem_flatMap.mpr ⟨(p, e), ?_, hh⟩) hin
        exact Std.ExtTreeMap.mem_toList_iff_getElem?_eq_some.mpr he
      · exact hin
  · cases h

/-- What the target is to hold at a path. -/
theorem Folder.forTarget_get (p : Text) : (source.forTarget R C m target).files[p]? =
    (source.build R C m target).files[p]?.map fun e => { e with mode := e.mode &&& 0o777 } :=
  getElem?_maskModes _ p

/-- A mode without the masked bits keeps its permission bits in a scan. -/
theorem unixMode_mask (mode : Nat) : unixMode (mode &&& 0o777) = mode &&& 0o777 := by
  rw [unixMode, Nat.land_assoc]
  rfl

/-- Masking twice is masking. -/
theorem mask_mask (mode : Nat) : mode &&& 0o777 &&& 0o777 = mode &&& 0o777 := by
  rw [Nat.land_assoc, Nat.and_self]

/-- The file a masked entry is written as is read as that entry. -/
theorem entry_writtenFile {a : Round} {f g : DiskFile} {b : Bytes} (hC : C.Lawful)
    (hd : ∀ h d, a.data h = some d → C.hash d = h) (hlen : b.length = g.bytes.length)
    (he : e = { C.entry g with mode := unixMode g.mode &&& 0o777, chunks := C.names b })
    (hf : writtenFile a e = some f) : C.entry f = e := by
  obtain ⟨b', hb', rfl⟩ := Option.map_eq_some_iff.mp hf
  subst he
  obtain rfl := eq_of_assemble hC hd hb'
  simp only [Chunker.entry, FileTime.ofEntry, mask_mask, unixMode_mask, hlen,
    clampNanos_eq_iff.mpr g.mtime.range]

/-- **A cycle leaves its target in step.** -/
theorem Synced.inStep {source' target' : Folder} (hC : C.Lawful)
    (hgen : Genuine C source.recorded.files) (hin : target.InStep C)
    (h : Synced R C m lower source target source' target') : target'.InStep C := by
  refine ⟨h.verified hin.verified, fun p => ?_⟩
  rw [h.recorded]
  rcases applyOn_get h.disk p with ⟨hsame, hdisk⟩ | ⟨-, ⟨hnone, hdisk⟩ | ⟨e, f, he, hf, hdisk⟩⟩
  · rw [hsame, hdisk]
    exact hin.recorded p
  · rw [hnone, hdisk, Option.map_none]
  · rw [he, hdisk, Option.map_some, Option.some.injEq]
    rw [Folder.forTarget_get] at he
    cases source.scanned hC hgen hin.verified m p with
    | none hbuild =>
      rw [hbuild] at he
      cases he
    | some _ _ _ hlen hbuild =>
      rw [hbuild, Option.map_some, Option.some.injEq] at he
      exact (entry_writtenFile hC (fun h d => hash_of_readChunk) hlen he.symm hf).symm

/-- A cycle's source records chunk lists of bytes of the recorded sizes. -/
theorem Synced.genuine {source' target' : Folder} (hC : C.Lawful)
    (hgen : Genuine C source.recorded.files) (hin : target.InStep C)
    (h : Synced R C m lower source target source' target') : Genuine C source'.recorded.files := by
  intro p e he
  rw [h.source_eq] at he
  cases source.scanned hC hgen hin.verified m p with
  | none hbuild =>
    rw [hbuild] at he
    cases he
  | some _ _ _ hlen hbuild =>
    rw [hbuild] at he
    cases he
    exact ⟨_, hlen, rfl⟩

/-- A cycle leaves the bytes it sends on the target. -/
theorem Synced.bytes {source' target' : Folder} (hC : C.Lawful)
    (hgen : Genuine C source.recorded.files) (hin : target.InStep C)
    (h : Synced R C m lower source target source' target') :
    target'.disk.bytes = source.sent R C target := by
  funext p
  have hrec := (h.inStep hC hgen hin).recorded p
  rw [h.recorded, Folder.forTarget_get] at hrec
  cases source.scanned hC hgen hin.verified m p with
  | none hbuild hsent =>
    rw [hbuild, Option.map_none, eq_comm, Option.map_eq_none_iff] at hrec
    rw [DiskMap.bytes, hrec, hsent, Option.map_none]
  | some _ _ hsent _ hbuild =>
    rw [hbuild, Option.map_some, eq_comm] at hrec
    obtain ⟨g, hg, hentry⟩ := Option.map_eq_some_iff.mp hrec
    rw [DiskMap.bytes, hg, hsent, Option.map_some]
    exact congrArg some (hC.eq_of_names (congrArg FileEntry.chunks hentry))

/-- A scan of a folder in step finds what is recorded, where it captures. -/
theorem Folder.InStep.build_get (hin : source.InStep C) (p : Text) :
    (source.build R C m target).files[p]? =
      if R.captures source.disk.bytes p then source.recorded.files[p]? else none := by
  rw [Folder.build_get, hin.recorded p]
  cases source.disk[p]? with
  | none => rw [Option.bind_none, Option.map_none, ite_self]
  | some f =>
    have hcapture : captureFile (source.round R C m target) source.recorded.scannedAtSecs
        (some (C.entry f)) f = C.entry f :=
      captureFile_eq_iff.mpr ⟨rfl, rfl, rfl, rfl, .inr rfl⟩
    rw [Option.bind_some, Option.map_some, hcapture]

/-! ## Quiet cycles -/

/-- A cycle completes, and writes and deletes nothing. -/
def Quiet (R : ScanRules) (C : Chunker) (m : Moment) (lower : Text → Text)
    (source target source' target' : Folder) : Prop :=
  ∃ r, syncCycle R C m source target lower = some (source', target', r) ∧ r.written = [] ∧
    r.deleted = [] ∧ target'.disk = target.disk

/-- Both parts of a list are empty when the list is. -/
theorem filter_append_eq_nil_iff {α : Type} (l : List α) (q : α → Bool) :
    l.filter (!q ·) ++ l.filter q = [] ↔ l = [] := by
  constructor
  · intro h
    obtain ⟨hn, hp⟩ := List.append_eq_nil_iff.mp h
    refine List.eq_nil_iff_forall_not_mem.mpr fun x hx => ?_
    have hx₁ := List.filter_eq_nil_iff.mp hn x hx
    have hx₂ := List.filter_eq_nil_iff.mp hp x hx
    cases hq : q x <;> simp [hq] at hx₁ hx₂
  · rintro rfl
    rfl

/-- **A cycle is quiet exactly when its target records what is to be applied.** -/
theorem quiet_iff (hs : validate source.recorded = .ok ()) (ht : validate target.recorded = .ok ())
    (hc : collision lower [] target.recorded.files.keys = none) :
    (∃ source' target', Quiet R C m lower source target source' target') ↔
      (source.forTarget R C m target).files = target.recorded.files := by
  constructor
  · rintro ⟨source', target', r, h, hwritten, hdeleted, -⟩
    unfold syncCycle at h
    dsimp only at h
    split at h
    · obtain ⟨disk, -, h⟩ := Option.map_eq_some_iff.mp h
      cases h
      rw [filter_append_eq_nil_iff, List.append_eq_nil_iff] at hwritten
      rw [filter_append_eq_nil_iff] at hdeleted
      refine (eq_of_diff_eq ?_).symm
      generalize diff target.recorded.files (source.forTarget R C m target).files = d at *
      cases d
      simp only at hwritten hdeleted
      rw [hwritten.1, hwritten.2, hdeleted]
    · cases h
  · intro h
    have hvalid : validate (source.forTarget R C m target) = .ok () := by
      rw [validate_eq_ok_iff, h]
      exact validate_eq_ok_iff.mp ht
    unfold Quiet syncCycle
    simp only [hs, ht, hvalid, h, hc, applyOps_self, diff_self, List.foldlM_nil, Option.pure_def,
      Option.map_some, Option.some.injEq, Prod.mk.injEq, List.append_nil, List.filter_nil]
    exact ⟨_, _, _, ⟨rfl, rfl, rfl⟩, rfl, rfl, rfl⟩

end

/-! ## Reversing a cycle -/

/-- The two folders of a sync. -/
structure SyncPair where
  source : Folder
  target : Folder

/-- What happens to them: the source is edited, or synced with others, or a cycle runs. -/
inductive SyncEvent where
  | between (source : Folder)
  | sync (m : Moment)

/-- A source and a target without anything. -/
def SyncPair.fresh (workspaceId : Text) : SyncPair :=
  let empty : Folder := { disk := ∅, recorded := .new workspaceId, store := ∅ }
  { source := empty, target := empty }

/-- A step of their history. A cycle that fails is none. -/
def SyncPair.step (R : ScanRules) (C : Chunker) (lower : Text → Text) (s : SyncPair) :
    SyncEvent → Option SyncPair
  | .between source => some { s with source }
  | .sync m => (syncCycle R C m s.source s.target lower).map fun (source, target, _) =>
    { source, target }

/-- Whatever else happens to the source, what is recorded of it was scanned from some bytes. -/
def SyncEvent.Scanned (C : Chunker) (_ : SyncPair) : SyncEvent → Prop
  | .between source => Genuine C source.recorded.files
  | .sync _ => True

/-- What every history keeps. -/
structure SyncPair.Inv (C : Chunker) (s : SyncPair) : Prop where
  genuine : Genuine C s.source.recorded.files
  inStep : s.target.InStep C

/-- What a cycle back, and the one after it, need of the files the scan captures: no set-id or sticky
bit, a target whose own scan captures them, and chunk lists that are the files' own, or that the scan
after the cycle back reuses again. -/
structure Folder.Reversible (R : ScanRules) (C : Chunker) (later : Int) (source target : Folder) :
    Prop where
  mode : ∀ (p : Text) (f : DiskFile), source.disk[p]? = some f →
    R.captures source.disk.bytes p = true → unixMode f.mode &&& 0o777 = unixMode f.mode
  captured : ∀ (p : Text) (f : DiskFile), source.disk[p]? = some f →
    R.captures source.disk.bytes p = true → R.captures (source.sent R C target) p = true
  chunks : ∀ (p : Text) (f : DiskFile), source.disk[p]? = some f →
    R.captures source.disk.bytes p = true →
      source.sent R C target p = some f.bytes ∨ f.mtime.secs + cacheSettleSecs ≤ later

section
variable {R : ScanRules} {C : Chunker} {lower : Text → Text} {source target a₁ b₁ a₂ b₂ : Folder}
  {m₁ m₂ m₃ : Moment}

/-- A fresh pair has nothing to keep. -/
theorem syncInv_fresh (C : Chunker) (workspaceId : Text) : (SyncPair.fresh workspaceId).Inv C := by
  refine ⟨fun p e he => ?_, fun h d hd => ?_, fun p => ?_⟩
  · simp [SyncPair.fresh, Manifest.new] at he
  · simp [SyncPair.fresh] at hd
  · simp [SyncPair.fresh, Manifest.new]

/-- Every event keeps the invariant. -/
theorem SyncPair.Inv.step (hC : C.Lawful) {s s' : SyncPair} {e : SyncEvent} (h : s.Inv C)
    (he : e.Scanned C s) (hs : s.step R C lower e = some s') : s'.Inv C := by
  cases e with
  | between source =>
    cases hs
    exact ⟨he, h.inStep⟩
  | sync m =>
    obtain ⟨⟨source, target, r⟩, hcycle, rfl⟩ := Option.map_eq_some_iff.mp hs
    have hsynced := synced_of_syncCycle hcycle
    exact ⟨hsynced.genuine hC h.genuine h.inStep, hsynced.inStep hC h.genuine h.inStep⟩

/-- Masking what is masked leaves it. -/
theorem map_mask_map_mask (e : Option FileEntry) :
    (e.map fun e => { e with mode := e.mode &&& 0o777 }).map
      (fun e => { e with mode := e.mode &&& 0o777 }) =
    e.map fun e => { e with mode := e.mode &&& 0o777 } := by
  rw [Option.map_map]
  simp only [Function.comp_def, mask_mask]

/-- So it is with a file set. -/
theorem maskModes_maskModes (files : FileMap) : maskModes (maskModes files) = maskModes files := by
  refine Lib.map_ext fun p => ?_
  rw [getElem?_maskModes, getElem?_maskModes]
  exact map_mask_map_mask _

/-- **When the cycle back has nothing to apply**: no captured file has a masked bit, and the target's
scan captures what it was sent. -/
theorem Synced.back_iff (hC : C.Lawful) (hgen : Genuine C source.recorded.files)
    (hin : target.InStep C) (h : Synced R C m₁ lower source target a₁ b₁) (m₂ : Moment) :
    (b₁.forTarget R C m₂ a₁).files = a₁.recorded.files ↔
      ∀ (p : Text) (f : DiskFile), source.disk[p]? = some f →
        R.captures source.disk.bytes p = true → unixMode f.mode &&& 0o777 = unixMode f.mode ∧
          R.captures (source.sent R C target) p = true := by
  have hback : ∀ p : Text, (b₁.forTarget R C m₂ a₁).files[p]? =
      if R.captures (source.sent R C target) p then
        (source.build R C m₁ target).files[p]?.map fun e => { e with mode := e.mode &&& 0o777 }
      else none := by
    intro p
    rw [Folder.forTarget_get, (h.inStep hC hgen hin).build_get, h.bytes hC hgen hin, h.recorded,
      Folder.forTarget_get]
    split
    · exact map_mask_map_mask _
    · rfl
  have hrec : a₁.recorded.files = (source.build R C m₁ target).files := by rw [h.source_eq]
  constructor
  · intro heq p f hf hcap
    have hp := hback p
    rw [heq, hrec] at hp
    cases source.scanned hC hgen hin.verified m₁ p with
    | none _ _ hnone => exact Bool.noConfusion ((hnone f hf).symm.trans hcap)
    | @some g b hg _ _ _ hbuild =>
      obtain rfl := Option.some.inj (hf.symm.trans hg)
      rw [hbuild] at hp
      split at hp
      · rename_i hvis
        exact ⟨(congrArg FileEntry.mode (Option.some.inj hp)).symm, hvis⟩
      · cases hp
  · refine fun hall => Lib.map_ext fun p => ?_
    rw [hback p, hrec]
    cases source.scanned hC hgen hin.verified m₁ p with
    | none hbuild => rw [hbuild, Option.map_none, ite_self]
    | some hf hcap _ _ hbuild =>
      obtain ⟨hmode, hvis⟩ := hall p _ hf hcap
      rw [if_pos hvis, hbuild, Option.map_some, Option.some.injEq]
      simp only [Chunker.entry, hmode]

/-- **When the cycle after a quiet cycle back has nothing to apply**: each chunk list is the file's
own, or old enough to be reused. -/
theorem Synced.again_iff (hC : C.Lawful) (hgen : Genuine C source.recorded.files)
    (hin : target.InStep C) (h : Synced R C m₁ lower source target a₁ b₁)
    (hback : (b₁.forTarget R C m₂ a₁).files = a₁.recorded.files)
    (hsecond : Synced R C m₂ lower b₁ a₁ b₂ a₂) (hdisk : a₂.disk = a₁.disk) (m₃ : Moment) :
    (a₂.forTarget R C m₃ b₂).files = b₂.recorded.files ↔
      ∀ (p : Text) (f : DiskFile), source.disk[p]? = some f →
        R.captures source.disk.bytes p = true →
          source.sent R C target p = some f.bytes ∨
            f.mtime.secs + cacheSettleSecs ≤ m₂.scannedAt := by
  have hfiles : a₁.recorded.files = (source.build R C m₁ target).files := by rw [h.source_eq]
  have hmasked : maskModes (source.build R C m₁ target).files =
      (source.build R C m₁ target).files := by
    rw [← hfiles, ← hback]
    exact maskModes_maskModes _
  -- Both folders record the first capture.
  have ha₂ : a₂.recorded.files = (source.build R C m₁ target).files := by
    rw [hsecond.recorded, hback, hfiles]
  have hb₂ : b₂.recorded.files = (source.build R C m₁ target).files := by
    rw [← hfiles, ← hback, hsecond.source_eq]
    refine Lib.map_ext fun p => ?_
    rw [Folder.forTarget_get, (h.inStep hC hgen hin).build_get, h.recorded, Folder.forTarget_get]
    split
    · exact (map_mask_map_mask _).symm
    · rfl
  have hsecs : a₂.recorded.scannedAtSecs = m₂.scannedAt := by
    rw [hsecond.recorded]
    rfl
  have hdisk' : a₂.disk = source.disk := by rw [hdisk, h.source_eq]
  have hpresent : ∀ (p : Text) (b : Bytes) (f : DiskFile), (source.build R C m₁ target).files[p]? =
      some { C.entry f with chunks := C.names b } → HasChunks C (source.uploads R C target).store b →
        HasChunks C b₂.store b := by
    intro p b f hbuild hhas x hx
    have hstore : b₂.store = b₁.store := by rw [hsecond.source_eq]
    rw [hstore]
    refine h.kept p { C.entry f with chunks := C.names b } ?_ x hx (hhas x hx)
    rw [h.recorded]
    exact (congrArg (·[p]?) hmasked).trans hbuild
  -- A captured file is captured as before when its chunk list stands.
  have hstand : ∀ (p : Text) (f : DiskFile) (b : Bytes), source.sent R C target p = some b →
      (source.build R C m₁ target).files[p]? = some { C.entry f with chunks := C.names b } →
      HasChunks C (source.uploads R C target).store b →
      (captureFile (a₂.round R C m₃ b₂) m₂.scannedAt
          (some { C.entry f with chunks := C.names b }) f = { C.entry f with chunks := C.names b } ↔
        source.sent R C target p = some f.bytes ∨
          f.mtime.secs + cacheSettleSecs ≤ m₂.scannedAt) := by
    intro p f b hsent hbuild hhas
    have hall : (C.names b).all (a₂.round R C m₃ b₂).present = true :=
      List.all_eq_true.mpr (hpresent p b f hbuild hhas)
    rw [captureFile_eq_iff]
    constructor
    · rintro ⟨-, -, -, -, ⟨hsettled, -⟩ | hnames⟩
      · exact .inr hsettled
      · exact .inl (hsent.trans (congrArg some (hC.eq_of_names hnames).symm))
    · rintro (hb | hsettled)
      · obtain rfl := Option.some.inj (hsent.symm.trans hb)
        exact ⟨rfl, rfl, rfl, rfl, .inr rfl⟩
      · exact ⟨rfl, rfl, rfl, rfl, .inl ⟨hsettled, hall⟩⟩
  have hthird : ∀ p : Text, (a₂.build R C m₃ b₂).files[p]? =
      source.disk[p]?.bind fun f => if R.captures source.disk.bytes p then
        some (captureFile (a₂.round R C m₃ b₂) m₂.scannedAt
          (source.build R C m₁ target).files[p]? f) else none := by
    intro p
    rw [Folder.build_get, hsecs, ha₂, hdisk']
  rw [hb₂]
  constructor
  · intro heq p f hf hcap
    have hp : (a₂.forTarget R C m₃ b₂).files[p]? = _ := congrArg (·[p]?) heq
    rw [Folder.forTarget_get, hthird, hf, Option.bind_some, hcap, if_pos rfl, Option.map_some] at hp
    cases source.scanned hC hgen hin.verified m₁ p with
    | none _ _ hnone => exact Bool.noConfusion ((hnone f hf).symm.trans hcap)
    | @some g b hg _ hsent _ hbuild hhas =>
      obtain rfl := Option.some.inj (hf.symm.trans hg)
      rw [hbuild, Option.some.injEq] at hp
      refine (hstand p f b hsent hbuild hhas).mp ?_
      have hchunks := congrArg FileEntry.chunks hp
      exact congrArg (fun c => { C.entry f with chunks := c }) hchunks
  · intro hall
    refine Eq.trans (congrArg maskModes ?_) hmasked
    refine Lib.map_ext fun p => ?_
    rw [hthird p]
    cases source.scanned hC hgen hin.verified m₁ p with
    | none hbuild _ hnone =>
      rw [hbuild]
      cases hf : source.disk[p]? with
      | none => rfl
      | some f => rw [Option.bind_some, hnone f hf, if_neg Bool.false_ne_true]
    | some hf hcap hsent _ hbuild hhas =>
      rw [hf, Option.bind_some, hcap, if_pos rfl, hbuild]
      exact congrArg some ((hstand p _ _ hsent hbuild hhas).mpr (hall p _ hf hcap))

/-- What a cycle has its two folders record passes the checks of the next one. -/
theorem Synced.checks (h : Synced R C m₁ lower source target a₁ b₁) :
    validate a₁.recorded = .ok () ∧ validate b₁.recorded = .ok () ∧
      collision lower [] a₁.recorded.files.keys = none := by
  have hfiles : a₁.recorded.files = (source.build R C m₁ target).files := by rw [h.source_eq]
  have hvalid := validate_eq_ok_iff.mp h.validNew
  refine ⟨validate_eq_ok_iff.mpr ?_, h.recorded ▸ h.validNew, ?_⟩
  · have hget : ∀ p : Text, a₁.recorded.files[p]? = none ↔
        (source.forTarget R C m₁ target).files[p]? = none := by
      intro p
      rw [Folder.forTarget_get, hfiles, Option.map_eq_none_iff]
    refine ⟨fun p hp => hvalid.path p (mt (hget p).mpr hp), fun p e he => ?_,
      fun p hp a ha => (hget a).mpr (hvalid.noDir p (mt (hget p).mpr hp) a ha)⟩
    refine hvalid.hash p { e with mode := e.mode &&& 0o777 } ?_
    rw [Folder.forTarget_get, ← hfiles, he, Option.map_some]
  · have hkeys : (source.forTarget R C m₁ target).files.keys =
        (source.build R C m₁ target).files.keys := Std.ExtTreeMap.keys_map
    rw [hfiles, ← hkeys]
    exact h.apart

end

/-- **When reversing a sync is a no-op.** After every history of a source and a target that was empty
at first, and one more cycle: the cycle back completes and writes and deletes nothing on the source, and
so does the next one on the target, if and only if the captured files have no set-id or sticky bit, the
target's scan captures them under the rule files it was sent, and every chunk list that the first cycle
reused is the file's own or is reused again. -/
theorem reverse_quiet_iff {R : ScanRules} {C : Chunker} {lower : Text → Text} (hC : C.Lawful)
    {workspaceId : Text} {events : List SyncEvent} {s : SyncPair}
    (hrun : Lib.Run (SyncPair.step R C lower) (fun s e => e.Scanned C s) (.fresh workspaceId) events s)
    {m₁ : Moment} {a₁ b₁ : Folder} {r : CycleReport}
    (hsync : syncCycle R C m₁ s.source s.target lower = some (a₁, b₁, r)) (m₂ m₃ : Moment) :
    (∃ a₂ b₂ a₃ b₃, Quiet R C m₂ lower b₁ a₁ b₂ a₂ ∧ Quiet R C m₃ lower a₂ b₂ a₃ b₃) ↔
      s.source.Reversible R C m₂.scannedAt s.target := by
  have hinv : s.Inv C := hrun.invariant (fun _ _ _ hi he hs => hi.step hC he hs)
    (syncInv_fresh C workspaceId)
  have h := synced_of_syncCycle hsync
  obtain ⟨hvalid, hvalid', hapart⟩ := h.checks
  have hback := h.back_iff hC hinv.genuine hinv.inStep m₂
  have hquiet : (∃ b₂ a₂, Quiet R C m₂ lower b₁ a₁ b₂ a₂) ↔ _ := quiet_iff hvalid' hvalid hapart
  have hagain : ∀ {a₂ b₂ : Folder}, Quiet R C m₂ lower b₁ a₁ b₂ a₂ →
      ((∃ a₃ b₃, Quiet R C m₃ lower a₂ b₂ a₃ b₃) ↔
        ∀ (p : Text) (f : DiskFile), s.source.disk[p]? = some f →
          R.captures s.source.disk.bytes p = true →
            s.source.sent R C s.target p = some f.bytes ∨
              f.mtime.secs + cacheSettleSecs ≤ m₂.scannedAt) := by
    intro a₂ b₂ hq
    have hnothing := hquiet.mp ⟨b₂, a₂, hq⟩
    obtain ⟨r₂, hcycle, -, -, hdisk⟩ := hq
    have hsecond := synced_of_syncCycle hcycle
    obtain ⟨hval, hval', hap⟩ := hsecond.checks
    exact (quiet_iff hval' hval hap).trans
      (h.again_iff hC hinv.genuine hinv.inStep hnothing hsecond hdisk m₃)
  constructor
  · rintro ⟨a₂, b₂, a₃, b₃, hq, hq'⟩
    have hfirst := hback.mp (hquiet.mp ⟨b₂, a₂, hq⟩)
    exact ⟨fun p f hf hcap => (hfirst p f hf hcap).1, fun p f hf hcap => (hfirst p f hf hcap).2,
      (hagain hq).mp ⟨a₃, b₃, hq'⟩⟩
  · intro hrev
    obtain ⟨b₂, a₂, hq⟩ := hquiet.mpr (hback.mpr fun p f hf hcap =>
      ⟨hrev.mode p f hf hcap, hrev.captured p f hf hcap⟩)
    obtain ⟨a₃, b₃, hq'⟩ := (hagain hq).mpr hrev.chunks
    exact ⟨a₂, b₂, a₃, b₃, hq, hq'⟩

/-- A chunker for small files: one chunk, named by its bytes in unary. -/
def smallChunker : Chunker where
  split bytes := if bytes = [] then [] else [bytes]
  hash bytes :=
    let digits := bytes.flatMap fun n => List.replicate n.toNat '0' ++ ['1']
    digits ++ List.replicate (64 - digits.length) '2'

/-- Bytes are told apart by their unary digits. -/
theorem unary_injective : ∀ {b b' : Bytes},
    b.flatMap (fun n => List.replicate n.toNat '0' ++ ['1']) =
      b'.flatMap (fun n => List.replicate n.toNat '0' ++ ['1']) → b = b'
  | [], [], _ => rfl
  | [], n :: b', h => by simp at h
  | n :: b, [], h => by simp at h
  | n :: b, n' :: b', h => by
    have hzeros : ∀ (n : UInt8) (rest : Text),
        ((List.replicate n.toNat '0' ++ ['1'] ++ rest).takeWhile (· = '0')).length = n.toNat := by
      intro n rest
      rw [List.append_assoc, List.takeWhile_append_of_pos (by simp)]
      simp
    rw [List.flatMap_cons, List.flatMap_cons] at h
    have hn : n = n' := by
      have hlen := congrArg (fun t => (t.takeWhile (· = '0')).length) h
      exact UInt8.toNat_inj.mp ((hzeros _ _).symm.trans (hlen.trans (hzeros _ _)))
    subst hn
    rw [unary_injective (List.append_cancel_left h)]

theorem smallChunker_lawful : smallChunker.Lawful := by
  refine ⟨fun bytes => ?_, fun b b' h => unary_injective ?_⟩
  · unfold smallChunker
    dsimp only
    split
    · rename_i hnil
      rw [hnil, List.flatten_nil]
    · rw [List.flatten_cons, List.flatten_nil, List.append_nil]
  · have hdigits : ∀ (digits : Text) (n : Nat), '2' ∉ digits →
        (digits ++ List.replicate n '2').filter (· ≠ '2') = digits := by
      intro digits n hd
      rw [List.filter_append, List.filter_eq_self.mpr, List.filter_eq_nil_iff.mpr, List.append_nil]
      · simp
      · exact fun c hc => decide_eq_true fun h => hd (h ▸ hc)
    have hunary : ∀ b : Bytes, '2' ∉ b.flatMap fun n => List.replicate n.toNat '0' ++ ['1'] := by
      intro b hb
      obtain ⟨n, -, hn⟩ := List.mem_flatMap.mp hb
      simp at hn
    have hf := congrArg (List.filter (· ≠ '2')) h
    dsimp only [smallChunker] at hf
    rwa [hdigits _ _ (hunary b), hdigits _ _ (hunary b')] at hf

/-- A folder with one file. -/
def testFolder (mode : Nat) : Folder where
  disk := (∅ : DiskMap).insert "f".toList ⟨[1], mode, ⟨10, 0, range_zero⟩⟩
  recorded := .new "ws".toList
  store := ∅

/-- A moment of a cycle. -/
def testMoment (now : Int) : Moment where
  scannedAt := now
  stagedAt := ⟨now, 0, range_zero⟩
  reaches _ := true

/-- A folder without a manifest has nothing recorded that was not scanned. -/
theorem genuine_testFolder (mode : Nat) : Genuine smallChunker (testFolder mode).recorded.files := by
  intro p e he
  simp [testFolder, Manifest.new] at he

/-- The history of one file in a source that is synced for the first time. -/
theorem run_testFolder (mode : Nat) : Lib.Run (SyncPair.step testRules smallChunker asciiLower)
    (fun s e => e.Scanned smallChunker s) (.fresh "ws".toList) [.between (testFolder mode)]
    { SyncPair.fresh "ws".toList with source := testFolder mode } :=
  .cons (genuine_testFolder mode) rfl (.nil _)

/-- A file with permission bits only is synced, and the sync is reversed. -/
theorem reverse_quiet_iff_plain : ∃ a₁ b₁ r a₂ b₂ a₃ b₃,
    syncCycle testRules smallChunker (testMoment 20) (testFolder 0o644)
      (SyncPair.fresh "ws".toList).target asciiLower = some (a₁, b₁, r) ∧
    r.written = ["f".toList] ∧
    Quiet testRules smallChunker (testMoment 30) asciiLower b₁ a₁ b₂ a₂ ∧
    Quiet testRules smallChunker (testMoment 40) asciiLower a₂ b₂ a₃ b₃ := by
  have hfirst : ((syncCycle testRules smallChunker (testMoment 20) (testFolder 0o644)
      (SyncPair.fresh "ws".toList).target asciiLower).map fun x => x.2.2.written) =
        some ["f".toList] := by
    decide +kernel
  obtain ⟨⟨a₁, b₁, r⟩, hsync, hwritten⟩ := Option.map_eq_some_iff.mp hfirst
  have hone : ∀ (p : Text) (f : DiskFile), (testFolder 0o644).disk[p]? = some f →
      p = "f".toList ∧ f = ⟨[1], 0o644, ⟨10, 0, range_zero⟩⟩ := by
    intro p f hf
    rw [testFolder, Lib.getElem?_insert_eq] at hf
    split at hf
    · rename_i hp
      exact ⟨hp.symm, (Option.some.inj hf).symm⟩
    · simp at hf
  have hrev : (testFolder 0o644).Reversible testRules smallChunker (testMoment 30).scannedAt
      (SyncPair.fresh "ws".toList).target := by
    refine ⟨fun p f hf _ => ?_, fun p f hf _ => ?_, fun p f hf _ => ?_⟩
    · rw [(hone p f hf).2]
      decide
    · rw [(hone p f hf).1]
      decide +kernel
    · rw [(hone p f hf).2]
      exact .inr (by decide)
  obtain ⟨a₂, b₂, a₃, b₃, hq, hq'⟩ := (reverse_quiet_iff smallChunker_lawful (run_testFolder 0o644)
    hsync (testMoment 30) (testMoment 40)).mpr hrev
  exact ⟨a₁, b₁, r, a₂, b₂, a₃, b₃, hsync, hwritten, hq, hq'⟩

/-- A set-id file is synced, and the cycle back writes it on the source, without the bit. -/
theorem reverse_strips_mode : ∃ a₁ b₁ r b₂ a₂ r',
    Lib.Run (SyncPair.step testRules smallChunker asciiLower) (fun s e => e.Scanned smallChunker s)
      (.fresh "ws".toList) [.between (testFolder 0o4755)]
      { SyncPair.fresh "ws".toList with source := testFolder 0o4755 } ∧
    syncCycle testRules smallChunker (testMoment 20) (testFolder 0o4755)
      (SyncPair.fresh "ws".toList).target asciiLower = some (a₁, b₁, r) ∧
    syncCycle testRules smallChunker (testMoment 30) b₁ a₁ asciiLower = some (b₂, a₂, r') ∧
    r'.written = ["f".toList] ∧ a₁.disk["f".toList]?.map (·.mode) = some 0o4755 ∧
    a₂.disk["f".toList]?.map (·.mode) = some 0o755 := by
  have hcycles : ((syncCycle testRules smallChunker (testMoment 20) (testFolder 0o4755)
      (SyncPair.fresh "ws".toList).target asciiLower).bind fun x =>
        (syncCycle testRules smallChunker (testMoment 30) x.2.1 x.1 asciiLower).map fun y =>
          decide (y.2.2.written = ["f".toList]) &&
            decide (x.1.disk["f".toList]?.map (·.mode) = some 0o4755) &&
            decide (y.2.1.disk["f".toList]?.map (·.mode) = some 0o755)) = some true := by
    decide +kernel
  obtain ⟨⟨a₁, b₁, r⟩, hsync, hcycles⟩ := Option.bind_eq_some_iff.mp hcycles
  obtain ⟨⟨b₂, a₂, r'⟩, hback, hfacts⟩ := Option.map_eq_some_iff.mp hcycles
  simp only [Bool.and_eq_true, decide_eq_true_eq] at hfacts
  exact ⟨a₁, b₁, r, b₂, a₂, r', run_testFolder 0o4755, hsync, hback, hfacts.1.1, hfacts.1.2, hfacts.2⟩

end Pear
