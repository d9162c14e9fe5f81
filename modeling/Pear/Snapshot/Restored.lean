import Pear.Capture
import Pear.Snapshot.Clone

/-!
# What comes back from a clone

The runs of a clone, from `wpe_clone`. A clone that succeeds has restored its snapshot
(`clone_restores`): the relay chooses the snapshot and the chunks, but where a chunk list names bytes it
is these bytes that the file has. A clone has changed nothing but a fresh target, wherever it stops, and
one that fails has emptied it again (`clone_spares`). With the snapshot of a captured tree the two halves
meet: every captured file comes back with its bytes, its permission bits and its time
(`captured_tree_clones`), under any ring that has the keys it was sealed under.
-/

namespace Pear

open Lib (Errno Node Attr Content)

section
variable {Key : Type} {E : CloneEnv Key} {key : ReadKey Key} {R : CloneRelay} {now : Int × Int}
  {fails : CloneOp → Bool} {w w' : CloneHost} {workspace : Text} {id : Nat}
  {ticks : List (Lib.Tick CloneFault Empty)}

/-- A local store reads what hashes to its name. -/
theorem verifies_storeGet (C : ChunkCipher Key) (store : ChunkStore) : Verifies C (storeGet C store) :=
  fun _ _ h => of_decide_eq_true (Option.filter_eq_some_iff.mp h).2

/-- A file of a clone has the bytes that its chunk list names. -/
theorem ClonedInto.file {wire : Manifest} {info : SnapshotInfo} {store : ChunkStore} {t : Tree}
    (h : ClonedInto E key workspace wire info store t) (hC : E.cipher.Sound) {p : Text} {e : FileEntry}
    {bytes : Bytes} (he : wire.files[p]? = some e) (hnames : NamesBytes E.cipher key e.chunks bytes)
    (hone : ∀ name ∈ e.chunks, Unambiguous E.cipher name) :
    t.nodes[loc p]? = some (.file bytes ⟨e.mode &&& 0o777, e.mtime⟩) := by
  obtain ⟨bytes', hread, hnode⟩ := h.files p e he
  rwa [eq_of_assemble_names hC (verifies_storeGet _ _) hnames hone hread] at hnode

/-- **A clone restores its snapshot.** The target was empty or not there, and has the snapshot's files,
with the bytes that their chunk lists name, and nothing else but what is Pear's. -/
theorem clone_restores {report : CloneReport} (hC : E.cipher.Sound) (hlist : fails .listTarget = false)
    (run : Lib.Run (cloneHost E key R now fails).step (fun _ _ => True)
      (w, clone E workspace id key) ticks (w', .done report)) :
    w.Fresh ∧ ∃ snapshot wire, R.snapshot id = .ok snapshot ∧
      openSnapshot E workspace id key snapshot = .ok wire ∧
      ((∀ p : Text, wire.files[p]? ≠ none → ¬ HasDot p) → report.workspaceId = E.newId ∧
        ∃ t, w'.target = some t ∧ ClonedInto E key workspace wire snapshot.info w'.store t ∧
          ∀ (p : Text) (e : FileEntry) (bytes : Bytes), wire.files[p]? = some e →
            NamesBytes E.cipher key e.chunks bytes →
            (∀ name ∈ e.chunks, Unambiguous E.cipher name) →
            t.nodes[loc p]? = some (.file bytes ⟨e.mode &&& 0o777, e.mtime⟩)) := by
  obtain ⟨hfresh, snapshot, wire, hget, hopen, hcloned⟩ :=
    (Lib.wpe_ended (wpe_clone hlist) run rfl).1 report rfl
  refine ⟨hfresh, snapshot, wire, hget, hopen, fun hdots => ?_⟩
  obtain ⟨hid, t, ht, hinto⟩ := hcloned hdots
  exact ⟨hid, t, ht, hinto, fun p e bytes he hnames hone => hinto.file hC he hnames hone⟩

/-- **A clone spares what it did not make**: at every point of every run nothing has changed, or the
target was fresh when the clone began. One that fails leaves it as it was, or fresh again, unless the
workspace could not be set up or the cleanup fails too. -/
theorem clone_spares {p' : CloneProg CloneReport} (hlist : fails .listTarget = false)
    (run : Lib.Run (cloneHost E key R now fails).step (fun _ _ => True)
      (w, clone E workspace id key) ticks (w', p')) :
    (w' = w ∨ w.Fresh) ∧ ∀ e, p' = .fail e → w' = w ∨
      w.Fresh ∧ (e.Setup ∨ ((∀ name, fails (.removeEntry name) = false) → w'.Fresh)) := by
  have hclone : Lib.wpe (cloneHost E key R now fails) w.Spares _ (clone E workspace id key) w :=
    wpe_clone hlist
  refine ⟨Lib.wpe_always (I := fun w' => w' = w ∨ w.Fresh) hclone (fun op w₁ w₂ hspares hi => ?_) run
    (.inl rfl), ?_⟩
  · rcases hspares with rfl | hfresh
    · exact hi
    · exact .inr hfresh
  · rintro e rfl
    exact (Lib.wpe_ended hclone run rfl).2 e rfl

/-! ## Captured trees -/

/-- A snapshot off the wire carries a manifest: as it is, or sealed under a ring's newest key
(`push_snapshot_inner`). -/
def Snapshot.Carries (C : ChunkCipher Key) (j : ManifestJson) (writer : ReadKey Key) (s : Snapshot)
    (m : Manifest) : Prop :=
  match writer with
  | none => s.manifestEnc = none ∧ s.manifest = m
  | some r => ∃ nonce, nonce.length = gcmNonceLen ∧ s.manifestEnc = some (encryptManifest C j r nonce m)

/-- A reader has what a writer seals under: both are plain, or the ring has the writer's keys. -/
def ReadKey.Has (reader writer : ReadKey Key) : Prop :=
  match writer, reader with
  | none, none => True
  | some r, some r' => ∀ (g : Nat) (k : Key), r.keys[g]? = some k → r'.keys[g]? = some k
  | _, _ => False

/-- What a writer's chunk lists name, they name to such a reader. -/
theorem NamesBytes.read {C : ChunkCipher Key} {reader writer : ReadKey Key} {names : List Text}
    {bytes : Bytes} (h : NamesBytes C writer names bytes) (hread : reader.Has writer) :
    NamesBytes C reader names bytes := by
  cases writer with
  | none =>
    cases reader with
    | none => exact h
    | some r' => cases hread
  | some r =>
    cases reader with
    | none => cases hread
    | some r' => exact h.mono hread

/-- A snapshot is opened as the manifest it carries. -/
theorem snapshotManifest_of_carries {writer : ReadKey Key} {s : Snapshot} {m wire : Manifest}
    (hC : E.cipher.Sound) (hjson : E.json.read (E.json.write m) = some m) (hread : key.Has writer)
    (h : s.Carries E.cipher E.json writer m) (hopen : openSnapshot E workspace id key s = .ok wire) :
    wire = m := by
  have hm : snapshotManifest E id key s = .ok m := by
    cases writer with
    | none =>
      cases key with
      | some r' => cases hread
      | none =>
        obtain ⟨henc, hplain⟩ := h
        unfold snapshotManifest
        rw [henc]
        exact congrArg Except.ok hplain
    | some r =>
      cases key with
      | none => cases hread
      | some r' =>
        obtain ⟨nonce, hn, henc⟩ := h
        unfold snapshotManifest
        rw [henc]
        dsimp only
        rw [decryptManifest_encryptManifest hC hjson hn ⟨_, hread _ _ r.newest_key⟩]
        rfl
  rw [openSnapshot, hm] at hopen
  cases hv : validate m with
  | error e =>
    simp only [hv, bind, Except.bind, Except.mapError] at hopen
    cases hopen
  | ok u =>
    simp only [hv, bind, Except.bind, Except.mapError] at hopen
    unfold refuseIf at hopen
    split at hopen
    · cases hopen
    · cases hopen
      rfl

/-- What a scan of a tree captures, its chunk lists named by the uploads of a writer. -/
structure Uploaded (C : ChunkCipher Key) (writer : ReadKey Key) (a : Round) (recorded : Manifest)
    (disk : DiskMap) : Prop where
  /-- A fresh list is what an upload has returned of the chunks that make up the file. -/
  upload : ∀ (p : Text) (f : DiskFile), disk[p]? = some f → ∃ file u t u', file.flatten = f.bytes ∧
    (Uploader.uploadFile C.toChunkCrypto writer.writeKey file u).Trace t
      (.ok (a.upload f.bytes, u'))
  /-- A chunk list that is reused is that of the bytes on disk. The cache rule does not ensure it: a
  list whose recorded time is another device's can be that of other bytes. -/
  reused : ∀ (p : Text) (f : DiskFile) (e : FileEntry), disk[p]? = some f →
    recorded.files[p]? = some e → reusable a.present recorded.scannedAtSecs f e = true →
    NamesBytes C writer e.chunks f.bytes

section
variable {C : ChunkCipher Key} {writer : ReadKey Key} {rules : ScanRules} {a : Round}
  {recorded : Manifest} {disk : DiskMap} {p : Text} {f : DiskFile} {e : FileEntry}

/-- **A captured entry names its file's bytes.** -/
theorem Uploaded.names (hC : C.Sound) (h : Uploaded C writer a recorded disk) (hf : disk[p]? = some f) :
    NamesBytes C writer (captureFile a recorded.scannedAtSecs recorded.files[p]? f).chunks f.bytes := by
  obtain ⟨file, u, t, u', hfile, hrun⟩ := h.upload p f hf
  have hfresh : NamesBytes C writer (a.upload f.bytes) file.flatten := namesBytes_upload hC writer hrun
  rw [hfile] at hfresh
  unfold captureFile
  cases hrec : recorded.files[p]? with
  | none => exact hfresh
  | some e =>
    dsimp only
    split
    · rename_i hre
      exact h.reused p f e hf hrec hre
    · exact hfresh

/-- What an apply of a captured entry makes of the mode and the time. -/
theorem captureFile_attr (r : Option FileEntry) :
    (⟨(captureFile a recorded.scannedAtSecs r f).mode &&& 0o777,
      (captureFile a recorded.scannedAtSecs r f).mtime⟩ : Attr) =
      ⟨f.mode &&& 0o777, (f.mtime.secs, f.mtime.nanos)⟩ := by
  have hmode : unixMode f.mode &&& 0o777 = f.mode &&& 0o777 := by
    rw [unixMode, Nat.and_assoc]
    rfl
  have hnanos : clampNanos f.mtime.nanos = f.mtime.nanos := by
    have := f.mtime.range
    unfold clampNanos
    omega
  simp only [captureFile, FileEntry.mtime, hmode, hnanos]

end

/-- **A captured tree comes back from a clone**: every file that the scan captured, with its bytes, its
permission bits and its time, and no other. -/
theorem captured_tree_clones {report : CloneReport} {writer : ReadKey Key} {rules : ScanRules}
    {a : Round} {recorded : Manifest} {disk : DiskMap} {snapshot : Snapshot} (hC : E.cipher.Sound)
    (hup : Uploaded E.cipher writer a recorded disk)
    (hdots : ∀ p : Text, disk[p]? ≠ none → ¬ HasDot p)
    (hone : ∀ (p : Text) (e : FileEntry), (captureTree rules a recorded disk).files[p]? = some e →
      ∀ name ∈ e.chunks, Unambiguous E.cipher name)
    (hjson : E.json.read (E.json.write (captureTree rules a recorded disk)) =
      some (captureTree rules a recorded disk))
    (hsnap : R.snapshot id = .ok snapshot)
    (hcarries : snapshot.Carries E.cipher E.json writer (captureTree rules a recorded disk))
    (hread : key.Has writer) (hlist : fails .listTarget = false)
    (run : Lib.Run (cloneHost E key R now fails).step (fun _ _ => True)
      (w, clone E workspace id key) ticks (w', .done report)) :
    ∃ t, w'.target = some t ∧
      (∀ (p : Text) (f : DiskFile), disk[p]? = some f → rules.captures disk.bytes p = true →
        t.nodes[loc p]? = some (.file f.bytes ⟨f.mode &&& 0o777, (f.mtime.secs, f.mtime.nanos)⟩)) ∧
      ∀ l, t.leaf l ≠ none → pearLoc <+: l ∨
        ∃ p : Text, disk[p]? ≠ none ∧ rules.captures disk.bytes p = true ∧ l = loc p := by
  obtain ⟨-, snapshot', wire, hget, hopen, hcloned⟩ :=
    (Lib.wpe_ended (wpe_clone hlist) run rfl).1 report rfl
  obtain rfl := Except.ok.inj (hget.symm.trans hsnap)
  obtain rfl := snapshotManifest_of_carries hC hjson hread hcarries hopen
  have hkey : ∀ {p : Text}, (captureTree rules a recorded disk).files[p]? ≠ none →
      disk[p]? ≠ none ∧ rules.captures disk.bytes p = true := by
    intro p hp
    rw [captureTree_get] at hp
    cases hf : disk[p]? with
    | none =>
      rw [hf] at hp
      exact absurd rfl hp
    | some f =>
      refine ⟨Option.some_ne_none _, ?_⟩
      by_contra hnot
      rw [hf, Option.bind_some, if_neg hnot] at hp
      exact hp rfl
  obtain ⟨-, t, ht, hinto⟩ := hcloned fun p hp => hdots p (hkey hp).1
  refine ⟨t, ht, fun p f hf hcaptured => ?_, fun l hl => (hinto.only l hl).imp_right ?_⟩
  · have he : (captureTree rules a recorded disk).files[p]? =
        some (captureFile a recorded.scannedAtSecs recorded.files[p]? f) := by
      rw [captureTree_get, hf, Option.bind_some, if_pos hcaptured]
    rw [hinto.file hC he ((hup.names hC hf).read hread) (hone p _ he), captureFile_attr]
  · rintro ⟨p, hp, rfl⟩
    exact ⟨p, (hkey hp).1, (hkey hp).2, rfl⟩

end

/-! ## Runs -/

/-- A clone has ended, on a host that meets a check. -/
def finished (check : CloneHost → Bool) : CloneHost × CloneProg CloneReport → Bool
  | (w, .done _) => check w
  | _ => false

/-- The end of a clone is found by executing it. -/
theorem exists_finished {M : Lib.Machine CloneHost CloneOp CloneOp.Ret CloneFault Empty}
    {s : CloneHost × CloneProg CloneReport} {ticks : List (Lib.Tick CloneFault Empty)}
    {check : CloneHost → Bool} (h : (Lib.replay M.step s ticks).map (finished check) = some true) :
    ∃ w' report, Lib.Run M.step (fun _ _ => True) s ticks (w', .done report) ∧ check w' = true := by
  obtain ⟨⟨w', p⟩, hs, hfinished⟩ := Option.map_eq_some_iff.mp h
  cases p with
  | done report => exact ⟨w', report, Lib.Run.of_replay (fun _ _ _ => trivial) hs, hfinished⟩
  | fail | call => cases hfinished

/-- A byte sealed under a key by `plainTag`. -/
def sealedByte (k b : UInt8) : Bytes := .replicate 12 0 ++ k :: (.replicate 15 0 ++ [b])

/-- A cipher that writes the key and fifteen zeros before the plaintext, and a hash that tells two blobs
from each other and from the rest. -/
def plainTag : ChunkCipher UInt8 where
  blake3 b :=
    if b = sealedByte 9 1 then .replicate 64 'a'
    else if b = sealedByte 7 2 then .replicate 64 'c'
    else .replicate 64 'b'
  keyedHash _ _ := .replicate 32 0
  gcm k _ b := k :: (.replicate 15 0 ++ b)
  gcmOpen k _ c := if c.take 16 = k :: .replicate 15 0 then some (c.drop 16) else none

theorem plainTag_sound : plainTag.Sound where
  lawful := {
    hash_hex := fun b => by
      show isChunkHash (if b = sealedByte 9 1 then _ else if b = sealedByte 7 2 then _ else _) = true
      split
      · decide
      split <;> decide
    keyedHash_length := fun _ _ => List.length_replicate ..
    gcm_length := fun k n b => by simp [plainTag, gcmTagLen] }
  open_iff := fun k n c b => by
    show (if c.take 16 = k :: .replicate 15 0 then some (c.drop 16) else none) = some b ↔ _
    constructor
    · intro h
      split at h
      · rename_i htake
        rw [← Option.some.inj h, ← List.take_append_drop 16 c, htake]
        rfl
      · cases h
    · rintro rfl
      exact if_pos rfl
  key_eq := fun k k' n b b' h => (List.cons.inj h).1

/-- The ring a tree is captured under, rotated once, and that ring rotated again. -/
def writerRing : Keyring UInt8 := (Keyring.fromLegacy 7).rotate 9
def rotatedRing : Keyring UInt8 := writerRing.rotate 11

/-- A tree with two files of one byte each. -/
def oneByteDisk : DiskMap :=
  ((∅ : DiskMap).insert "f".toList ⟨[1], 0o100644, 5, 6, by decide⟩).insert "g".toList
    ⟨[2], 0o100600, 3, 0, by decide⟩

/-- The second was captured before the rotation. -/
def oneByteRecorded : Manifest where
  version := formatVersion
  workspaceId := "w".toList
  scannedAtSecs := 8
  files := (∅ : FileMap).insert "g".toList ⟨1, 0o600, 3, 0, [.replicate 64 'c']⟩

/-- A round that uploads a file as one chunk under the writer's newest key. -/
def oneChunkRound : Round where
  stamp := []
  scannedAt := 9
  stagedAt := { secs := 9, nanos := 0, range := range_zero }
  upload b := [(chunkEntry plainTag.toChunkCrypto (some 9) b).1]
  present _ := true
  data _ := none

/-- Rules that ignore nothing. -/
def noRules : ScanRules where
  parse _ := none
  ignored _ _ _ := false

/-- What is captured of the tree. -/
def oneByteCapture : Manifest := captureTree noRules oneChunkRound oneByteRecorded oneByteDisk

/-- A manifest as a list of numbers, each text with its length before it. -/
def textWords (t : Text) : List Nat := t.length :: t.map Char.toNat
def entryWords (e : FileEntry) : List Nat :=
  [e.size, e.mode, e.mtimeSecs.toNat, e.mtimeNanos.toNat, e.chunks.length] ++ e.chunks.flatMap textWords
def manifestWords (m : Manifest) : List Nat :=
  [m.version, m.scannedAtSecs.toNat] ++ textWords m.workspaceId ++ m.files.toList.length ::
    m.files.toList.flatMap fun (p, e) => textWords p ++ entryWords e

/-- Take a text, an entry with its path, or so many of them off the front. -/
def takeText : List Nat → Option (Text × List Nat)
  | n :: ws => if n ≤ ws.length then some ((ws.take n).map Char.ofNat, ws.drop n) else none
  | [] => none
def takeMany {α : Type} (take : List Nat → Option (α × List Nat)) :
    Nat → List Nat → Option (List α × List Nat)
  | 0, ws => some ([], ws)
  | n + 1, ws => do
    let (x, ws) ← take ws
    let (xs, ws) ← takeMany take n ws
    return (x :: xs, ws)
def takeEntry (ws : List Nat) : Option ((Text × FileEntry) × List Nat) := do
  let (path, ws) ← takeText ws
  match ws with
  | size :: mode :: secs :: nanos :: count :: ws => do
    let (chunks, ws) ← takeMany takeText count ws
    return ((path, ⟨size, mode, secs, nanos, chunks⟩), ws)
  | _ => none
def takeManifest : List Nat → Option Manifest
  | version :: scannedAt :: ws => do
    let (workspaceId, ws) ← takeText ws
    match ws with
    | count :: ws => do
      let (files, _) ← takeMany takeEntry count ws
      return ⟨version, workspaceId, scannedAt, .ofList files compare⟩
    | [] => none
  | _ => none

/-- Two bytes a number. -/
def writeWords (ws : List Nat) : Bytes := ws.flatMap (Lib.leBytes 2)
def readWords : Bytes → List Nat
  | a :: b :: rest => Lib.ofLeBytes [a, b] :: readWords rest
  | _ => []

def oneByteEnv : CloneEnv UInt8 where
  cipher := plainTag
  json := { write := fun m => writeWords (manifestWords m), read := fun b => takeManifest (readWords b) }
  writeMeta _ := []
  readMeta _ := none
  writeKeyring _ := []
  writeOrigin _ := []
  writeManifest m := writeWords (manifestWords m)
  lower := id
  tag := id
  newId := "n".toList
  clonedAt := 0

/-- What is captured reads back. -/
theorem json_oneByte : oneByteEnv.json.read (oneByteEnv.json.write oneByteCapture) =
    some oneByteCapture := by
  have hread : (oneByteEnv.json.read (oneByteEnv.json.write oneByteCapture)).map (·.files) =
      some oneByteCapture.files ∧
      (oneByteEnv.json.read (oneByteEnv.json.write oneByteCapture)).map
        (fun m => (m.version, m.workspaceId, m.scannedAtSecs)) = some (formatVersion, "w".toList, 9) := by
    decide +kernel
  obtain ⟨hfiles, hrest⟩ := hread
  obtain ⟨⟨version, workspaceId, scannedAt, files⟩, hm, rfl⟩ := Option.map_eq_some_iff.mp hfiles
  rw [hm] at hrest
  obtain ⟨rfl, hrest⟩ := Prod.mk.inj (Option.some.inj hrest)
  obtain ⟨rfl, rfl⟩ := Prod.mk.inj hrest
  exact hm

/-- Its snapshot. -/
def oneByteSnapshot : Snapshot where
  info := { id := 3, name := none, kind := "named".toList, device := [], createdAt := 0 }
  manifest := .new []
  manifestEnc := some (encryptManifest plainTag oneByteEnv.json writerRing (.replicate 12 0)
    oneByteCapture)

/-- A relay that has the snapshot and the chunk of the second file, and that of the first or not. -/
def oneByteRelay (chunk : Option Bytes) : CloneRelay where
  snapshot _ := .ok oneByteSnapshot
  pool hash :=
    if hash = .replicate 64 'a' then chunk
    else if hash = .replicate 64 'c' then some (sealedByte 7 2)
    else none

theorem carries_oneByte :
    oneByteSnapshot.Carries plainTag oneByteEnv.json (some writerRing) oneByteCapture :=
  ⟨.replicate 12 0, rfl, rfl⟩

theorem rotatedRing_has : ReadKey.Has (some rotatedRing) (some writerRing) := by
  intro g k hk
  have hkeys : ∀ g ∈ writerRing.keys.keys, rotatedRing.keys[g]? = writerRing.keys[g]? := by
    decide
  rw [hkeys g (Lib.mem_keys_iff.mpr (by rw [hk]; exact Option.some_ne_none _)), hk]

/-- The clone of the snapshot where nothing fails, under the ring that has been rotated since. -/
abbrev byteClone (chunk : Option Bytes) :
    Lib.Machine CloneHost CloneOp CloneOp.Ret CloneFault Empty :=
  cloneHost oneByteEnv (some rotatedRing) (oneByteRelay chunk) (7, 0) fun _ => false

/-- Where it begins. -/
def noTarget : CloneHost × CloneProg CloneReport :=
  ({ target := none, store := ∅ }, clone oneByteEnv "w".toList 3 (some rotatedRing))

/-- A ring with the key reads the chunk. -/
theorem names_sealedByte {r : Keyring UInt8} {g : Nat} {k b : UInt8} (hkey : r.keys[g]? = some k) :
    NamesBytes plainTag (some r) [plainTag.blake3 (sealedByte k b)] [b] :=
  ⟨[[b]], rfl, .cons ⟨sealedByte k b, ⟨g, k, .replicate 12 0, hkey, rfl, rfl⟩, rfl⟩ .nil⟩

theorem unambiguous_sealedByte {name : Text} (h : name ≠ .replicate 64 'b') :
    Unambiguous plainTag name := by
  have hac : List.replicate 64 'a' ≠ .replicate 64 'c' := by decide
  intro b b' hb hb'
  have hcases : ∀ x, plainTag.blake3 x = name → x = sealedByte 9 1 ∧ name = .replicate 64 'a' ∨
      x = sealedByte 7 2 ∧ name = .replicate 64 'c' := by
    intro x hx
    unfold plainTag at hx
    dsimp only at hx
    split at hx
    · exact .inl ⟨‹_›, hx.symm⟩
    split at hx
    · exact .inr ⟨‹_›, hx.symm⟩
    · exact absurd hx.symm h
  rcases hcases b hb with ⟨rfl, hname⟩ | ⟨rfl, hname⟩ <;>
    rcases hcases b' hb' with ⟨rfl, hname'⟩ | ⟨rfl, hname'⟩
  · rfl
  · exact absurd (hname.symm.trans hname') hac
  · exact absurd (hname'.symm.trans hname) hac
  · rfl


theorem hash_oneByte : plainTag.blake3 (sealedByte 9 1) = .replicate 64 'a' ∧
    plainTag.blake3 (sealedByte 7 2) = .replicate 64 'c' := by
  decide

theorem keys_oneByte : writerRing.keys[1]? = some 7 ∧ rotatedRing.keys[2]? = some 9 ∧
    rotatedRing.keys[1]? = some 7 := by
  decide

/-- What is captured: the first file under the newest key, the second under that before. -/
theorem oneByteCapture_files : oneByteCapture.files.toList.map (fun x => (x.1, x.2.chunks)) =
    [("f".toList, [plainTag.blake3 (sealedByte 9 1)]),
      ("g".toList, [plainTag.blake3 (sealedByte 7 2)])] := by
  decide +kernel

theorem oneByteCapture_get {p : Text} {e : FileEntry} (h : oneByteCapture.files[p]? = some e) :
    p = "f".toList ∧ e.chunks = [plainTag.blake3 (sealedByte 9 1)] ∨
      p = "g".toList ∧ e.chunks = [plainTag.blake3 (sealedByte 7 2)] := by
  have hmem : (p, e.chunks) ∈ oneByteCapture.files.toList.map (fun x => (x.1, x.2.chunks)) :=
    List.mem_map.mpr ⟨(p, e), Std.ExtTreeMap.mem_toList_iff_getElem?_eq_some.mpr h, rfl⟩
  rw [oneByteCapture_files] at hmem
  rcases List.mem_cons.mp hmem with heq | hmem
  · exact .inl (Prod.mk.inj heq)
  · exact .inr (Prod.mk.inj (List.mem_singleton.mp hmem))

theorem oneByteCapture_there {p : Text} {chunks : List Text}
    (h : (p, chunks) ∈ oneByteCapture.files.toList.map fun x => (x.1, x.2.chunks)) :
    ∃ e, oneByteCapture.files[p]? = some e ∧ e.chunks = chunks := by
  obtain ⟨⟨q, e⟩, hmem, heq⟩ := List.mem_map.mp h
  obtain ⟨rfl, rfl⟩ := Prod.mk.inj heq
  exact ⟨e, Std.ExtTreeMap.mem_toList_iff_getElem?_eq_some.mp hmem, rfl⟩

theorem unambiguous_oneByte {p : Text} {e : FileEntry} (h : oneByteCapture.files[p]? = some e) :
    ∀ name ∈ e.chunks, Unambiguous plainTag name := by
  intro name hname
  refine unambiguous_sealedByte ?_
  rcases oneByteCapture_get h with ⟨-, hchunks⟩ | ⟨-, hchunks⟩
  · rw [hchunks, hash_oneByte.1] at hname
    exact List.mem_singleton.mp hname ▸ by decide
  · rw [hchunks, hash_oneByte.2] at hname
    exact List.mem_singleton.mp hname ▸ by decide

/-- A file of the tree. -/
theorem oneByteDisk_get {p : Text} {f : DiskFile} (h : oneByteDisk[p]? = some f) :
    p = "f".toList ∧ f.bytes = [1] ∨ p = "g".toList ∧ f.bytes = [2] := by
  rw [oneByteDisk, Lib.getElem?_insert_eq] at h
  split at h
  · rw [← Option.some.inj h]
    exact .inr ⟨(by symm; assumption), rfl⟩
  rw [Lib.getElem?_insert_eq] at h
  split at h
  · rw [← Option.some.inj h]
    exact .inl ⟨(by symm; assumption), rfl⟩
  · cases h

theorem oneByteDisk_there :
    oneByteDisk["f".toList]? = some ⟨[1], 0o100644, ⟨5, 6, by decide⟩⟩ ∧
      oneByteDisk["g".toList]? = some ⟨[2], 0o100600, ⟨3, 0, by decide⟩⟩ ∧
      noRules.captures oneByteDisk.bytes "f".toList = true ∧
      noRules.captures oneByteDisk.bytes "g".toList = true := by
  decide

theorem reusable_oneByte : reusable oneChunkRound.present oneByteRecorded.scannedAtSecs
    ⟨[2], 0o100600, 3, 0, by decide⟩ ⟨1, 0o600, 3, 0, [.replicate 64 'c']⟩ = true := by
  decide

/-- Its first file is uploaded, and the list of its second is reused. -/
theorem uploaded_oneByte :
    Uploaded plainTag (some writerRing) oneChunkRound oneByteRecorded oneByteDisk where
  upload p f hf := by
    rcases oneByteDisk_get hf with ⟨-, hbytes⟩ | ⟨-, hbytes⟩
    all_goals rw [hbytes]
    · exact ⟨[[1]], .new, [], _, rfl, .done _⟩
    · exact ⟨[[2]], .new, [], _, rfl, .done _⟩
  reused p f e hf he _ := by
    rw [oneByteRecorded, Lib.getElem?_insert_eq] at he
    split at he
    · subst p
      rw [← Option.some.inj he]
      rcases oneByteDisk_get hf with ⟨hpath, -⟩ | ⟨-, hbytes⟩
      · exact absurd hpath (by decide)
      · rw [hbytes]
        exact hash_oneByte.2 ▸ names_sealedByte keys_oneByte.1
    · cases he

theorem byteClone_ends : (Lib.replay (byteClone (some (sealedByte 9 1))).step noTarget
    (.replicate 57 .go)).map (finished fun _ => true) = some true := by
  decide +kernel

/-- The bytes are restored, under a ring that has been rotated since they were sealed. -/
theorem clone_restores_byte : ∃ w' report,
    Lib.Run (byteClone (some (sealedByte 9 1))).step (fun _ _ => True) noTarget (.replicate 57 .go)
      (w', .done report) ∧
    ∃ t attr attr', w'.target = some t ∧ t.nodes[loc "f".toList]? = some (.file [1] attr) ∧
      t.nodes[loc "g".toList]? = some (.file [2] attr') := by
  obtain ⟨w', report, run, -⟩ := exists_finished byteClone_ends
  refine ⟨w', report, run, ?_⟩
  obtain ⟨-, snapshot, wire, hget, hopen, h⟩ := clone_restores plainTag_sound rfl run
  obtain rfl := Except.ok.inj hget
  obtain rfl := snapshotManifest_of_carries plainTag_sound json_oneByte rotatedRing_has
    carries_oneByte hopen
  have hdots : ∀ p : Text, oneByteCapture.files[p]? ≠ none → ¬ HasDot p := by
    intro p hp
    obtain ⟨e, he⟩ := Option.ne_none_iff_exists'.mp hp
    rcases oneByteCapture_get he with ⟨rfl, -⟩ | ⟨rfl, -⟩ <;> decide
  obtain ⟨-, t, ht, -, hfile⟩ := h hdots
  obtain ⟨e, he, hchunks⟩ := oneByteCapture_there (oneByteCapture_files ▸ List.mem_cons_self)
  obtain ⟨e', he', hchunks'⟩ := oneByteCapture_there
    (oneByteCapture_files ▸ List.mem_cons_of_mem _ List.mem_cons_self)
  exact ⟨t, _, _, ht,
    hfile _ e [1] he (hchunks ▸ names_sealedByte keys_oneByte.2.1) (unambiguous_oneByte he),
    hfile _ e' [2] he' (hchunks' ▸ names_sealedByte keys_oneByte.2.2) (unambiguous_oneByte he')⟩

/-- So is the tree that was captured, with each file's mode and time. -/
theorem captured_tree_clones_byte : ∃ w' report,
    Lib.Run (byteClone (some (sealedByte 9 1))).step (fun _ _ => True) noTarget (.replicate 57 .go)
      (w', .done report) ∧
    reusable oneChunkRound.present oneByteRecorded.scannedAtSecs ⟨[2], 0o100600, 3, 0, by decide⟩
      ⟨1, 0o600, 3, 0, [.replicate 64 'c']⟩ = true ∧
    ∃ t, w'.target = some t ∧
      t.nodes[loc "f".toList]? = some (.file [1] ⟨0o644, (5, 6)⟩) ∧
      t.nodes[loc "g".toList]? = some (.file [2] ⟨0o600, (3, 0)⟩) := by
  obtain ⟨w', report, run, -⟩ := exists_finished byteClone_ends
  refine ⟨w', report, run, reusable_oneByte, ?_⟩
  have hdots : ∀ p : Text, oneByteDisk[p]? ≠ none → ¬ HasDot p := by
    intro p hp
    obtain ⟨f, hf⟩ := Option.ne_none_iff_exists'.mp hp
    rcases oneByteDisk_get hf with ⟨rfl, -⟩ | ⟨rfl, -⟩ <;> decide
  obtain ⟨t, ht, hfiles, -⟩ := captured_tree_clones (E := oneByteEnv) plainTag_sound uploaded_oneByte
    hdots (fun p e he => unambiguous_oneByte he) json_oneByte rfl carries_oneByte rotatedRing_has rfl run
  obtain ⟨hf, hg, hf', hg'⟩ := oneByteDisk_there
  exact ⟨t, ht, hfiles _ _ hf hf', hfiles _ _ hg hg'⟩

/-- A clone has failed because the relay lacks a chunk, on a host that meets a check. -/
def missedChunks (check : CloneHost → Bool) : CloneHost × CloneProg CloneReport → Bool
  | (w, .fail (.missing _)) => check w
  | _ => false

/-- Such an end is found by executing the clone. -/
theorem exists_missed {M : Lib.Machine CloneHost CloneOp CloneOp.Ret CloneFault Empty}
    {s : CloneHost × CloneProg CloneReport} {ticks : List (Lib.Tick CloneFault Empty)}
    {check : CloneHost → Bool}
    (h : (Lib.replay M.step s ticks).map (missedChunks check) = some true) :
    ∃ w' hashes, Lib.Run M.step (fun _ _ => True) s ticks (w', .fail (.missing hashes)) ∧
      check w' = true := by
  obtain ⟨⟨w', p⟩, hs, hmissed⟩ := Option.map_eq_some_iff.mp h
  unfold missedChunks at hmissed
  split at hmissed
  · rename_i hashes heq
    obtain ⟨rfl, rfl⟩ := Prod.mk.inj heq
    exact ⟨_, hashes, Lib.Run.of_replay (fun _ _ _ => trivial) hs, hmissed⟩
  · cases hmissed

/-- A clone that has set up its target and finds that the relay lacks a chunk leaves nothing. -/
theorem clone_spares_missing : ∃ w' hashes,
    Lib.Run (byteClone none).step (fun _ _ => True) noTarget (.replicate 24 .go)
      (w', .fail (.missing hashes)) ∧ w'.Fresh := by
  have hrun : (Lib.replay (byteClone none).step noTarget (.replicate 24 .go)).map
      (missedChunks fun _ => true) = some true := by
    decide +kernel
  obtain ⟨w', hashes, run, -⟩ := exists_missed hrun
  refine ⟨w', hashes, run, ?_⟩
  rcases (clone_spares rfl run).2 _ rfl with rfl | ⟨-, hsetup | hfresh⟩
  · exact fun t ht => by cases ht
  · cases hsetup
  · exact hfresh fun _ => rfl

/-- A directory with a file. -/
def filledTarget : CloneHost where
  target := emptyTree.put ["f".toList] (.file [1] ⟨0o644, (0, 0)⟩)
  store := ∅

/-- Only listings can fail. -/
def listFails : CloneOp → Bool
  | .listTarget => true
  | _ => false

/-- Where the listing of a directory fails, it passes for an empty one, and the cleanup of a clone that
fails later removes the file in it. -/
theorem unlisted_target_emptied :
    filledTarget.target.bind (·.leaf ["f".toList]) = some (.file [1] ⟨0o644, (0, 0)⟩) ∧
    ∃ w' hashes, Lib.Run (cloneHost oneByteEnv (some rotatedRing) (oneByteRelay none) (7, 0)
        listFails).step (fun _ _ => True)
        (filledTarget, clone oneByteEnv "w".toList 3 (some rotatedRing))
        (.go :: .go :: .fault ⟨.notFound [], none, .ok [], .ok [], []⟩ :: .replicate 22 .go)
        (w', .fail (.missing hashes)) ∧
      w'.target.map (·.nodes.keys) = some [] := by
  have hrun : (Lib.replay (cloneHost oneByteEnv (some rotatedRing) (oneByteRelay none) (7, 0)
      listFails).step (filledTarget, clone oneByteEnv "w".toList 3 (some rotatedRing))
      (.go :: .go :: .fault ⟨.notFound [], none, .ok [], .ok [], []⟩ :: .replicate 22 .go)).map
        (missedChunks fun w => w.target.map (·.nodes.keys) = some []) = some true := by
    decide +kernel
  obtain ⟨w', hashes, run, hkeys⟩ := exists_missed hrun
  exact ⟨by decide, w', hashes, run, of_decide_eq_true hkeys⟩

end Pear
