import Pear.Converge.Faults
import Pear.LocalSync

/-!
# The chunk cache and the clock

A scan does not read a file that has the size and the modification time of its recorded entry, when that
time is two seconds before the scan which recorded the entry (`reusable`). An edit gives its file the
time of the clock, so one that comes after that scan cannot bring an old time back, as long as the scan
time was read from the same clock.

The recorded manifest need not be one of this device's scans. A pull records the head it has applied, and
a converge that fails before it publishes the head it has merged against, both with the scan time of the
device that published them (`foreign_scan_reuses`). A scan keeps the recorded entries of files it cannot
read, and an apply that stops has written files beside a manifest that does not know them.
`cached_chunks_real` names for each of these steps what must not be, and shows that nothing else can make
a reused chunk list wrong.
-/

namespace Pear

/-! ## A device and its clock -/

/-- The modification time of a file that is written: the clock, in nanoseconds since 1970, rounded down
to the granularity of the file system. -/
def clockMtime (granularity now : Nat) : FileTime where
  secs := (now / granularity * granularity / 1000000000 : Nat)
  nanos := (now / granularity * granularity % 1000000000 : Nat)
  range := by omega

/-- What `scan_build_manifest` reads the clock as. -/
def clockSecs (now : Nat) : Int := (now / 1000000000 : Nat)

/-- A workspace on a device with a clock. -/
structure Clocked extends Site where
  now : Nat

/-- What an operation finds outside its workspace: the stamp of its conflict copies, when it stages
files and when it ends, the chunks the sink has, and the bytes it reads for a chunk's name. -/
structure Surroundings where
  stamp : Text
  stagedAt : Nat
  ends : Nat
  present : Text → Bool
  data : Text → Option Bytes

/-- Where a converge ends: before it touches the tree, after some conflict copies, after some steps of
its apply, before it publishes, or with its merge recorded. -/
inductive ConvergeEnd where
  | scanned
  | copies (n : Nat)
  | steps (n : Nat)
  | unpublished
  | published

/-- What happens on the device. A local sync into the workspace is a pull of the manifest it applies, and
one out of it a scan. -/
inductive ClockedEvent where
  | wait (t : Nat)
  | edit (p : Text) (bytes : Bytes) (mode : Nat)
  | delete (p : Text)
  | scan (o : Surroundings) (faults : Faults) (records : Bool)
  /-- A pull of a head, which stops after some steps of the apply or records the head. -/
  | pull (o : Surroundings) (head : Manifest) (stops : Option Nat)
  /-- An attempt of a converge, over a base in memory. -/
  | converge (o : Surroundings) (faults : Faults) (base head : Manifest) (ends : ConvergeEnd)

section
variable (R : ScanRules) (C : Chunker) (granularity : Nat) (device : Text) (s : Clocked)

/-- An operation as a round. -/
def Clocked.round (o : Surroundings) : Round where
  stamp := o.stamp
  scannedAt := clockSecs s.now
  stagedAt := clockMtime granularity o.stagedAt
  upload := C.names
  present := o.present
  data := o.data

/-- A head as a pull applies and records it. -/
def pulled (head : Manifest) : Manifest := { head with files := maskModes head.files }

/-- The steps of a pull's apply. -/
def Clocked.pullOps (head : Manifest) : List TreeOp :=
  applyOps s.recorded.files (pulled head).files

/-- The manifest a scan builds. -/
def Clocked.scanned (o : Surroundings) (faults : Faults) : Manifest :=
  buildManifest R faults (s.round C granularity o) s.recorded s.disk

/-- The merge of a converge. -/
def Clocked.merged (o : Surroundings) (faults : Faults) (base head : Manifest) : MergeOutcome :=
  merge base (s.scanned R C granularity o faults) head device o.stamp

/-- The files of a converge's tree when its apply starts, as the apply takes them to be. -/
def Clocked.copied (o : Surroundings) (faults : Faults) (base head : Manifest) : FileMap :=
  onDisk (s.scanned R C granularity o faults).files
    (s.merged R C granularity device o faults base head).conflicts

/-- The steps of a converge's apply. -/
def Clocked.convergeOps (o : Surroundings) (faults : Faults) (base head : Manifest) : List TreeOp :=
  applyOps (s.copied R C granularity device o faults base head)
    (s.merged R C granularity device o faults base head).merged.files

/-- What a converge leaves on disk and records. -/
def Clocked.converge (o : Surroundings) (faults : Faults) (base head : Manifest) :
    ConvergeEnd → Option (DiskMap × Manifest) := fun ends =>
  let a := s.round C granularity o
  let out := s.merged R C granularity device o faults base head
  let ops := s.convergeOps R C granularity device o faults base head
  match ends, validate out.merged with
  | .scanned, _ => some (s.disk, s.recorded)
  | _, .error _ => none
  | .copies n, .ok () =>
    ((out.conflicts.take n).foldlM (copyFile a) s.disk).map fun disk => (disk, s.recorded)
  | .steps n, .ok () => (out.conflicts.foldlM (copyFile a) s.disk).bind fun copied =>
    ((ops.take n).foldlM (TreeOp.runOn a) copied).map fun disk => (disk, s.recorded)
  | .unpublished, .ok () => (out.conflicts.foldlM (copyFile a) s.disk).bind fun copied =>
    (ops.foldlM (TreeOp.runOn a) copied).map fun disk =>
      let old := s.copied R C granularity device o faults base head
      (disk, if diff old out.merged.files = {} then s.recorded else head)
  | .published, .ok () => (out.conflicts.foldlM (copyFile a) s.disk).bind fun copied =>
    (ops.foldlM (TreeOp.runOn a) copied).map fun disk => (disk, out.merged)

/-- One step on the device. The clock never goes back. -/
def Clocked.step : ClockedEvent → Option Clocked
  | .wait t => if s.now ≤ t then some { s with now := t } else none
  | .edit p bytes mode =>
    some { s with disk := s.disk.insert p ⟨bytes, mode, clockMtime granularity s.now⟩ }
  | .delete p => some { s with disk := s.disk.erase p }
  | .scan o faults records =>
    if s.now ≤ o.stagedAt ∧ o.stagedAt ≤ o.ends then
      some { s with
        now := o.ends
        recorded := if records then s.scanned R C granularity o faults else s.recorded }
    else none
  | .pull o head stops =>
    if s.now ≤ o.stagedAt ∧ o.stagedAt ≤ o.ends then
      let ops := s.pullOps head
      match stops with
      | some n => ((ops.take n).foldlM (TreeOp.runOn (s.round C granularity o)) s.disk).map fun disk =>
        { s with now := o.ends, disk }
      | none => (ops.foldlM (TreeOp.runOn (s.round C granularity o)) s.disk).map fun disk =>
        { now := o.ends, disk, recorded := pulled head }
    else none
  | .converge o faults base head ends =>
    if s.now ≤ o.stagedAt ∧ o.stagedAt ≤ o.ends then
      (s.converge R C granularity device o faults base head ends).map fun (disk, recorded) =>
        { now := o.ends, disk, recorded }
    else none

end

/-! ## What makes a reused chunk list wrong -/

/-- The cache rule takes a file for an entry, but the file has other bytes. -/
def MistakenFor (C : Chunker) (scannedAt : Int) (e : FileEntry) (f : DiskFile) : Prop :=
  e.size = f.bytes.length ∧ e.mtimeSecs = f.mtime.secs ∧ e.mtimeNanos = f.mtime.nanos ∧
    f.mtime.secs + cacheSettleSecs ≤ scannedAt ∧ C.names f.bytes ≠ e.chunks

/-- The clock and the time it gives to files that are written are at most a second apart, in whole
seconds. -/
def Prompt (granularity now : Nat) : Prop :=
  clockSecs now ≤ (clockMtime granularity now).secs + 1

/-- The entries that the cache rule trusts are two seconds old. -/
def Aged (M : Manifest) (now : Nat) : Prop :=
  ∀ (p : Text) (e : FileEntry), M.files[p]? = some e →
    e.mtimeSecs + cacheSettleSecs ≤ M.scannedAtSecs → e.mtimeSecs + cacheSettleSecs ≤ clockSecs now

/-- A head that a device has published, and a source that verifies the chunks it reads. -/
def ClockedEvent.Published (C : Chunker) : ClockedEvent → Prop
  | .pull o head _ | .converge o _ _ head _ =>
    Genuine C head.files ∧ ∀ h d, o.data h = some d → C.hash d = h
  | _ => True

section
variable (R : ScanRules) (C : Chunker) (granularity : Nat) (device : Text) (s : Clocked)

/-- A scan cannot capture a file that it looks for, or cannot read the directories to it. -/
def Clocked.Misses (o : Surroundings) (faults : Faults) (p : Text) (f : DiskFile) : Prop :=
  (R.finds faults s.disk.bytes p = true →
    tryCapture (s.round C granularity o) s.recorded.scannedAtSecs s.recorded.files[p]?
      (faults.fails p) f = none) ∧
  (R.finds faults s.disk.bytes p = true ∨ faults.unreadable.any (matchesPrefix p) = true)

/-- Where a recorded scan retains the entry of a file it misses, the cache rule does not now take the
file for it, if the file is kept. -/
def Clocked.RetainsRight (o : Surroundings) (faults : Faults) (keeps : Text → Prop) : Prop :=
  ∀ (p : Text) (e : FileEntry) (f : DiskFile), keeps p → s.recorded.files[p]? = some e →
    e.chunks.all o.present = true → s.disk[p]? = some f → s.Misses R C granularity o faults p f →
      ¬MistakenFor C (clockSecs s.now) e f

/-- An adopted manifest has no entry that its cache rule would take a kept file for, and the entries it
lets its cache rule trust are old by this device's clock. -/
def Clocked.AdoptsRight (ends : Nat) (adopted : Manifest) (keeps : Text → Prop) : Prop :=
  Aged adopted ends ∧ ∀ (p : Text) (e : FileEntry) (f : DiskFile),
    adopted.files[p]? = some e → keeps p → s.disk[p]? = some f →
      ¬MistakenFor C adopted.scannedAtSecs e f

/-- The files that an apply has written so far are not taken for what is recorded at their paths. -/
def Clocked.WritesRight (o : Surroundings) (ops : List TreeOp) : Prop :=
  Prompt granularity o.stagedAt ∧ ∀ (p : Text) (e e' : FileEntry) (f : DiskFile),
    .setMtime p e ∈ ops → writtenFile (s.round C granularity o) e = some f →
      s.recorded.files[p]? = some e' → ¬MistakenFor C s.recorded.scannedAtSecs e' f

/-- The conflict copies made so far are not taken for an entry at their paths. -/
def Clocked.CopiesRight (M : Manifest) (copies : List ConflictCopy) : Prop :=
  ∀ c ∈ copies, c.localOnly = false → c.side = .localSide → ∀ (f : DiskFile) (e : FileEntry),
    s.disk[c.path]? = some f → M.files[c.copyPath]? = some e →
      ¬MistakenFor C M.scannedAtSecs e { f with mtime := .ofEntry c.entry }

/-- What must not be in a step. -/
def Clocked.Careful : ClockedEvent → Prop
  | .wait _ | .delete _ => True
  | .edit _ _ _ => Prompt granularity s.now
  | .scan o faults records => records = true → s.RetainsRight R C granularity o faults fun _ => True
  | .pull o head none => s.AdoptsRight C o.ends (pulled head) fun p =>
    (pulled head).files[p]? = s.recorded.files[p]?
  | .pull o head (some n) => s.WritesRight C granularity o ((s.pullOps head).take n)
  | .converge o faults base head ends =>
    let out := s.merged R C granularity device o faults base head
    let ops := s.convergeOps R C granularity device o faults base head
    let old := s.copied R C granularity device o faults base head
    match ends with
    | .scanned => True
    | .copies n => s.CopiesRight C s.recorded (out.conflicts.take n)
    | .steps n => s.CopiesRight C s.recorded out.conflicts ∧ s.WritesRight C granularity o (ops.take n)
    | .unpublished =>
      if diff old out.merged.files = {} then s.CopiesRight C s.recorded out.conflicts
      else s.AdoptsRight C o.ends head fun p =>
        (decideAt base.files (s.scanned R C granularity o faults).files head.files p).entry =
          (s.scanned R C granularity o faults).files[p]?
    | .published =>
      (s.RetainsRight R C granularity o faults fun p =>
        (decideAt base.files (s.scanned R C granularity o faults).files head.files p).entry =
          (s.scanned R C granularity o faults).files[p]?) ∧ s.CopiesRight C out.merged out.conflicts

end

/-! ## What every careful step keeps -/

/-- Nothing on disk is taken for an entry of a manifest wrongly. -/
def Unmistaken (C : Chunker) (disk : DiskMap) (M : Manifest) : Prop :=
  ∀ (p : Text) (e : FileEntry) (f : DiskFile), M.files[p]? = some e → disk[p]? = some f →
    ¬MistakenFor C M.scannedAtSecs e f

/-- The recorded entries that are trusted are old, and nothing is taken for one wrongly. -/
structure Clocked.Inv (C : Chunker) (s : Clocked) : Prop where
  aged : Aged s.recorded s.now
  unmistaken : Unmistaken C s.disk s.recorded

section
variable {R : ScanRules} {C : Chunker} {granularity : Nat} {device : Text} {s s' : Clocked}
  {o : Surroundings} {e : FileEntry} {f : DiskFile} {p : Text} {a : Round}

/-- A later clock reads no earlier second. -/
theorem clockSecs_mono {t t' : Nat} (h : t ≤ t') : clockSecs t ≤ clockSecs t' :=
  Int.ofNat_le.mpr (Nat.div_le_div_right h)

/-- What is old stays old. -/
theorem Aged.mono {M : Manifest} {t t' : Nat} (h : Aged M t) (ht : t ≤ t') : Aged M t' :=
  fun p e he hs => (h p e he hs).trans (clockSecs_mono ht)

/-- A manifest that was scanned in the past trusts what is old. -/
theorem aged_of_past {M : Manifest} {t : Nat} (h : M.scannedAtSecs ≤ clockSecs t) : Aged M t :=
  fun _ _ _ hs => hs.trans h

/-- A file that is written is too young to be taken for an entry that is trusted. -/
theorem Aged.not_mistakenFor {M : Manifest} {t : Nat} {bytes : Bytes} {mode : Nat} (h : Aged M t)
    (hprompt : Prompt granularity t) (he : M.files[p]? = some e) :
    ¬MistakenFor C M.scannedAtSecs e ⟨bytes, mode, clockMtime granularity t⟩ := by
  rintro ⟨-, hsecs, -, hsettled, -⟩
  dsimp only at hsecs hsettled
  have hold := h p e he (hsecs ▸ hsettled)
  unfold Prompt at hprompt
  unfold cacheSettleSecs at hold
  omega

/-- A file written from a chunk list has that list. -/
theorem names_writtenFile (hC : C.Lawful) (hd : ∀ h d, a.data h = some d → C.hash d = h) {b : Bytes}
    (hb : C.names b = e.chunks) (hf : writtenFile a e = some f) : C.names f.bytes = e.chunks := by
  obtain ⟨b', hb', rfl⟩ := Option.map_eq_some_iff.mp hf
  rw [← hb] at hb' ⊢
  rw [eq_of_assemble hC hd hb']

/-- **No file is mistaken for the entry a scan has of it**, unless the scan retains it wrongly. -/
theorem Clocked.Inv.scanned (h : s.Inv C) {faults : Faults} {keeps : Text → Prop}
    (hretain : s.RetainsRight R C granularity o faults keeps) (hp : keeps p)
    (he : (s.scanned R C granularity o faults).files[p]? = some e) (hf : s.disk[p]? = some f) :
    ¬MistakenFor C (clockSecs s.now) e f := by
  have hretained : lastGood (s.round C granularity o) s.recorded.files[p]? = some e →
      s.Misses R C granularity o faults p f → ¬MistakenFor C (clockSecs s.now) e f := by
    intro hgood hmiss
    obtain ⟨hrec, hall⟩ := Option.filter_eq_some_iff.mp hgood
    exact hretain p e f hp hrec hall hf hmiss
  rw [Clocked.scanned, buildManifest_get, hf, Option.bind_some, Option.or_eq_some_iff] at he
  rcases he with hfound | ⟨hnone, hunread⟩
  · rw [Option.ite_none_right_eq_some, Option.or_eq_some_iff] at hfound
    rcases hfound with ⟨hfinds, hcapture | ⟨hfails, hgood⟩⟩
    · -- A captured file has the list of its bytes, or one that was reused.
      unfold tryCapture at hcapture
      split at hcapture
      · cases hcapture
      · rintro ⟨-, -, -, -, hnames⟩
        cases hcapture
        unfold captureFile at hnames
        dsimp only at hnames
        split at hnames
        · rename_i e₀ he₀
          split at hnames
          · rename_i hre
            simp only [reusable, Bool.and_eq_true, decide_eq_true_eq] at hre
            exact h.unmistaken p e₀ f he₀ hf
              ⟨hre.1.1.1.1, hre.1.1.1.2, hre.1.1.2, hre.1.2, hnames⟩
          · exact hnames rfl
        · exact hnames rfl
    · exact hretained hgood ⟨fun _ => hfails, .inl hfinds⟩
  · rw [Option.ite_none_right_eq_some] at hunread
    refine hretained hunread.2 ⟨fun hfinds => ?_, .inr hunread.1⟩
    rw [if_pos hfinds, Option.or_eq_none_iff] at hnone
    exact hnone.1

/-- **What a cut apply leaves at a path**: what was there, nothing, a staged file, or a file that is
written whole. -/
theorem applyOn_take_get {old new : FileMap} {disk disk' : DiskMap} {n : Nat}
    (h : ((applyOps old new).take n).foldlM (TreeOp.runOn a) disk = some disk') (q : Text) :
    disk'[q]? = disk[q]? ∨ disk'[q]? = none ∨
      (∃ e f, stagedFile a e a.stagedAt = some f ∧ disk'[q]? = some f) ∨
      ∃ e f, .setMtime q e ∈ (applyOps old new).take n ∧ writtenFile a e = some f ∧
        disk'[q]? = some f := by
  have hpre : ((applyOps old new).take n).filter (·.path = q) <+:
      (applyOps old new).filter (·.path = q) := (List.take_prefix n _).filter _
  have hmem : ∀ op ∈ ((applyOps old new).take n).filter (·.path = q), op ∈ (applyOps old new).take n :=
    fun op hop => (List.mem_filter.mp hop).1
  have hfold := foldlM_runOn_get q h
  generalize ((applyOps old new).take n).filter (·.path = q) = ops at hpre hmem hfold
  rw [applyOps_at] at hpre
  split at hpre
  · rw [List.prefix_nil] at hpre
    subst hpre
    exact .inl (Option.some.inj hfold).symm
  split at hpre
  · rw [List.prefix_cons_iff] at hpre
    rcases hpre with rfl | ⟨ops', rfl, hnil⟩
    · exact .inl (Option.some.inj hfold).symm
    · rw [List.prefix_nil] at hnil
      subst hnil
      exact .inr (.inl (Option.some.inj hfold).symm)
  · rename_i hnew
    obtain ⟨e, he⟩ := Option.ne_none_iff_exists'.mp hnew
    simp only [writeOps, he, List.prefix_cons_iff, List.prefix_nil] at hpre
    rcases hpre with rfl | ⟨ops', rfl, rfl | ⟨ops'', rfl, rfl⟩⟩
    · exact .inl (Option.some.inj hfold).symm
    · rw [List.foldlM_cons] at hfold
      obtain ⟨f, hf, hrest⟩ := Option.bind_eq_some_iff.mp hfold
      obtain ⟨g, hg, rfl⟩ := Option.map_eq_some_iff.mp hf
      exact .inr (.inr (.inl ⟨e, g, hg, (Option.some.inj hrest).symm⟩))
    · obtain ⟨f, hf, hd⟩ := foldlM_writeOps hfold
      exact .inr (.inr (.inr ⟨e, f, hmem _ (by simp), hf, hd⟩))

/-- The chunk lists of a head that is pulled are those of the head. -/
theorem genuine_pulled {head : Manifest} (h : Genuine C head.files) :
    Genuine C (pulled head).files := by
  intro p e he
  rw [pulled, getElem?_maskModes] at he
  obtain ⟨e', he', rfl⟩ := Option.map_eq_some_iff.mp he
  exact h p e' he'

/-- **A pull that completes** makes no file mistaken. -/
theorem unmistaken_pull (hC : C.Lawful) {head : Manifest} {disk : DiskMap}
    (hgen : Genuine C head.files) (hd : ∀ h d, o.data h = some d → C.hash d = h)
    (hcare : s.AdoptsRight C o.ends (pulled head) fun p =>
      (pulled head).files[p]? = s.recorded.files[p]?)
    (h : (s.pullOps head).foldlM (TreeOp.runOn (s.round C granularity o)) s.disk = some disk) :
    Unmistaken C disk (pulled head) := by
  intro p e f he hf
  rcases applyOn_get h p with ⟨hsame, hdisk⟩ | ⟨-, ⟨hnone, -⟩ | ⟨e', f', he', hwritten, hdisk⟩⟩
  · exact hcare.2 p e f he hsame (hdisk ▸ hf)
  · cases hnone.symm.trans he
  · cases he.symm.trans he'
    cases hf.symm.trans hdisk
    obtain ⟨b, -, hb⟩ := genuine_pulled hgen p e he
    exact fun hm => hm.2.2.2.2 (names_writtenFile hC hd hb hwritten)

/-- **An apply that stops** makes no file mistaken for what is recorded. -/
theorem unmistaken_cut {old new : FileMap} {disk disk' : DiskMap} {n : Nat}
    (hu : Unmistaken C disk s.recorded) (haged : Aged s.recorded o.stagedAt)
    (hcare : s.WritesRight C granularity o ((applyOps old new).take n))
    (h : ((applyOps old new).take n).foldlM (TreeOp.runOn (s.round C granularity o)) disk =
      some disk') : Unmistaken C disk' s.recorded := by
  intro p e f he hf
  rcases applyOn_take_get h p with hsame | hnone | ⟨e', f', hstaged, hdisk⟩ |
    ⟨e', f', hop, hwritten, hdisk⟩
  · exact hu p e f he (hsame ▸ hf)
  · cases hnone.symm.trans hf
  · cases hf.symm.trans hdisk
    obtain ⟨bytes, -, rfl⟩ := Option.map_eq_some_iff.mp hstaged
    exact haged.not_mistakenFor hcare.1 he
  · cases hf.symm.trans hdisk
    exact hcare.2 p e' e f hop hwritten he

/-- **Conflict copies** make no file mistaken. -/
theorem unmistaken_copies {M : Manifest} {cs : List ConflictCopy} {disk : DiskMap}
    (hu : Unmistaken C s.disk M) (hcare : s.CopiesRight C M cs)
    (hne : ∀ c ∈ cs, ∀ d ∈ cs, c.localOnly = false → c.copyPath ≠ d.path)
    (h : cs.foldlM (copyFile a) s.disk = some disk) : Unmistaken C disk M := by
  intro p e f he hf
  rcases copyFiles_get p h hne with ⟨-, hsame⟩ | ⟨c, hc, ⟨hl, hs, hp⟩, g, hg, hdisk⟩
  · exact hu p e f he (hsame ▸ hf)
  · cases hf.symm.trans hdisk
    exact hcare c hc hl hs g e hg (hp ▸ he)

section
variable {faults : Faults} {base head : Manifest} {copied disk : DiskMap}

/-- The merge of a converge, path by path. -/
theorem Clocked.merged_result (R : ScanRules) (C : Chunker) (granularity : Nat) (device : Text)
    (s : Clocked) (o : Surroundings) (faults : Faults) (base head : Manifest) :
    MergeResult base.files (s.scanned R C granularity o faults).files head.files
      (sanitizeDevice device) o.stamp (s.merged R C granularity device o faults base head).merged.files
      (s.merged R C granularity device o faults base head).conflicts :=
  merge_result base (s.scanned R C granularity o faults) head device o.stamp

/-- What is decided against the captured entry is the head's. -/
theorem head_of_decided {b l r : Option FileEntry} (h : (decidePath b l r).entry ≠ l) :
    (decidePath b l r).entry = r :=
  (decidePath_entry b l r).resolve_left h

/-- **A converge that publishes** makes no file mistaken for its merge. -/
theorem unmistaken_published (hC : C.Lawful) (hgen : Genuine C head.files)
    (hd : ∀ h d, o.data h = some d → C.hash d = h)
    (hu : ∀ (p : Text) (e : FileEntry) (f : DiskFile),
      (decideAt base.files (s.scanned R C granularity o faults).files head.files p).entry =
          (s.scanned R C granularity o faults).files[p]? →
        (s.scanned R C granularity o faults).files[p]? = some e → s.disk[p]? = some f →
          ¬MistakenFor C (clockSecs s.now) e f)
    (hcare : s.CopiesRight C (s.merged R C granularity device o faults base head).merged
      (s.merged R C granularity device o faults base head).conflicts)
    (hcopied : (s.merged R C granularity device o faults base head).conflicts.foldlM
      (copyFile (s.round C granularity o)) s.disk = some copied)
    (h : (s.convergeOps R C granularity device o faults base head).foldlM
      (TreeOp.runOn (s.round C granularity o)) copied = some disk) :
    Unmistaken C disk (s.merged R C granularity device o faults base head).merged := by
  intro p e f he hf
  have hres := s.merged_result R C granularity device o faults base head
  have hleft := leftAt_of_apply hres hcopied h p
  have hnew : ∀ {e' : FileEntry} {f' : DiskFile} {q : Text}, head.files[q]? = some e' →
      writtenFile (s.round C granularity o) e' = some f' →
      ∀ t, ¬MistakenFor C t e' f' := by
    intro e' f' q he' hwritten t hm
    obtain ⟨b, -, hb⟩ := hgen q e' he'
    exact hm.2.2.2.2 (names_writtenFile hC hd hb hwritten)
  rw [he, hf] at hleft
  generalize hm : some e = m, hx : some f = x at hleft
  cases hleft with
  | kept _ hcap => exact hu p e f hcap (hcap.symm.trans hm.symm) hx.symm
  | deleted => cases hm
  | @written e' f' _ hcap hdec hwritten =>
    cases hm
    cases hx
    exact hnew ((head_of_decided hcap).symm.trans hdec) hwritten _
  | @localCopy c g hc hl hs hq hg =>
    cases hm
    cases hx
    exact hcare c hc hl hs g c.entry hg (hres.copied c hc hl)
  | @remoteCopy c g hc hl hs hq hwritten =>
    cases hm
    cases hx
    obtain ⟨le, re, -, hr, -, -, -, hcase⟩ := decidePath_loser (hres.copyOf c hc).lost
    rcases hcase with ⟨hs', -⟩ | ⟨-, hentry, -⟩
    · exact ConflictSide.noConfusion (hs.symm.trans hs')
    · exact hnew (hr.trans (congrArg some hentry.symm)) hwritten _

/-- **A converge that fails before it publishes** makes no file mistaken for the head. -/
theorem unmistaken_unpublished (hC : C.Lawful) (hgen : Genuine C head.files)
    (hd : ∀ h d, o.data h = some d → C.hash d = h)
    (hcare : s.AdoptsRight C o.ends head fun p =>
      (decideAt base.files (s.scanned R C granularity o faults).files head.files p).entry =
        (s.scanned R C granularity o faults).files[p]?)
    (hcopied : (s.merged R C granularity device o faults base head).conflicts.foldlM
      (copyFile (s.round C granularity o)) s.disk = some copied)
    (h : (s.convergeOps R C granularity device o faults base head).foldlM
      (TreeOp.runOn (s.round C granularity o)) copied = some disk) : Unmistaken C disk head := by
  intro p e f he hf
  have hres := s.merged_result R C granularity device o faults base head
  have hleft := leftAt_of_apply hres hcopied h p
  rw [hf] at hleft
  generalize (s.merged R C granularity device o faults base head).merged.files[p]? = m,
    hx : some f = x at hleft
  -- A copy is not at a path of the head.
  have hfree : ∀ c ∈ (s.merged R C granularity device o faults base head).conflicts,
      c.localOnly = false → c.copyPath ≠ p := fun c hc hl =>
    (hres.copyOf c hc).copyPath_ne hl (.inr (by rw [he]; exact Option.some_ne_none e))
  cases hleft with
  | kept _ hcap => exact hcare.2 p e f he hcap hx.symm
  | deleted => cases hx
  | @written e' f' _ hcap hdec hwritten =>
    cases hx
    cases he.symm.trans ((head_of_decided hcap).symm.trans hdec)
    obtain ⟨b, -, hb⟩ := hgen p e he
    exact fun hm => hm.2.2.2.2 (names_writtenFile hC hd hb hwritten)
  | localCopy hc hl _ hq | remoteCopy hc hl _ hq => exact absurd hq (hfree _ hc hl)

/-- A converge leaves what is trusted old, and no file mistaken for it. -/
theorem Clocked.Inv.converge (hC : C.Lawful) (hi : s.Inv C) {ends : ConvergeEnd} {M : Manifest}
    (hgen : Genuine C head.files) (hd : ∀ h d, o.data h = some d → C.hash d = h)
    (htime : s.now ≤ o.stagedAt ∧ o.stagedAt ≤ o.ends)
    (hcare : s.Careful R C granularity device (.converge o faults base head ends))
    (h : s.converge R C granularity device o faults base head ends = some (disk, M)) :
    Aged M o.ends ∧ Unmistaken C disk M := by
  have haged : Aged s.recorded o.ends := hi.aged.mono (htime.1.trans htime.2)
  have hres := s.merged_result R C granularity device o faults base head
  have hne := hres.copyPath_ne_path
  unfold Clocked.converge at h
  dsimp only at h
  split at h
  · cases h
    exact ⟨haged, hi.unmistaken⟩
  · cases h
  · rename_i n _
    obtain ⟨disk', hcopied, h⟩ := Option.map_eq_some_iff.mp h
    cases h
    exact ⟨haged, unmistaken_copies hi.unmistaken hcare
      (fun c hc d hd => hne c (List.mem_of_mem_take hc) d (List.mem_of_mem_take hd)) hcopied⟩
  · rename_i n _
    obtain ⟨copied, hcopied, h⟩ := Option.bind_eq_some_iff.mp h
    obtain ⟨disk', hdisk, h⟩ := Option.map_eq_some_iff.mp h
    cases h
    exact ⟨haged, unmistaken_cut (unmistaken_copies hi.unmistaken hcare.1 hne hcopied)
      (hi.aged.mono htime.1) hcare.2 hdisk⟩
  · obtain ⟨copied, hcopied, h⟩ := Option.bind_eq_some_iff.mp h
    obtain ⟨disk', hdisk, h⟩ := Option.map_eq_some_iff.mp h
    cases h
    unfold Clocked.Careful at hcare
    dsimp only at hcare
    split
    · -- Nothing was applied, and the pointer did not move.
      rename_i hnothing
      rw [if_pos hnothing] at hcare
      have hops : s.convergeOps R C granularity device o faults base head = [] := by
        rw [Clocked.convergeOps, applyOps, hnothing]
        rfl
      rw [hops] at hdisk
      cases hdisk
      exact ⟨haged, unmistaken_copies hi.unmistaken hcare hne hcopied⟩
    · rename_i hsome
      rw [if_neg hsome] at hcare
      exact ⟨hcare.1, unmistaken_unpublished hC hgen hd hcare hcopied hdisk⟩
  · obtain ⟨copied, hcopied, h⟩ := Option.bind_eq_some_iff.mp h
    obtain ⟨disk', hdisk, h⟩ := Option.map_eq_some_iff.mp h
    cases h
    refine ⟨aged_of_past (clockSecs_mono (htime.1.trans htime.2)), ?_⟩
    exact unmistaken_published hC hgen hd (fun p e f => hi.scanned hcare.1) hcare.2 hcopied hdisk

end

/-- **Every careful step keeps the invariant.** -/
theorem Clocked.Inv.step (hC : C.Lawful) {e : ClockedEvent} (hi : s.Inv C) (hpub : e.Published C)
    (hcare : s.Careful R C granularity device e) (hs : s.step R C granularity device e = some s') :
    s'.Inv C := by
  cases e with
  | wait t =>
    obtain ⟨ht, hs⟩ := Option.ite_none_right_eq_some.mp hs
    cases hs
    exact ⟨hi.aged.mono ht, hi.unmistaken⟩
  | edit p bytes mode =>
    cases hs
    refine ⟨hi.aged, fun q e f he hf => ?_⟩
    dsimp only at he hf
    rw [Lib.getElem?_insert_eq] at hf
    split at hf
    · cases hf
      exact hi.aged.not_mistakenFor hcare he
    · exact hi.unmistaken q e f he hf
  | delete p =>
    cases hs
    refine ⟨hi.aged, fun q e f he hf => ?_⟩
    dsimp only at he hf
    rw [Lib.getElem?_erase_eq] at hf
    split at hf
    · cases hf
    · exact hi.unmistaken q e f he hf
  | scan o faults records =>
    obtain ⟨htime, hs⟩ := Option.ite_none_right_eq_some.mp hs
    cases hs
    cases records with
    | false => exact ⟨hi.aged.mono (htime.1.trans htime.2), hi.unmistaken⟩
    | true =>
      exact ⟨aged_of_past (clockSecs_mono (htime.1.trans htime.2)),
        fun p e f he hf => hi.scanned (hcare rfl) trivial he hf⟩
  | pull o head stops =>
    obtain ⟨htime, hs⟩ := Option.ite_none_right_eq_some.mp hs
    cases stops with
    | none =>
      obtain ⟨disk, hdisk, rfl⟩ := Option.map_eq_some_iff.mp hs
      exact ⟨hcare.1, unmistaken_pull hC hpub.1 hpub.2 hcare hdisk⟩
    | some n =>
      obtain ⟨disk, hdisk, rfl⟩ := Option.map_eq_some_iff.mp hs
      exact ⟨hi.aged.mono (htime.1.trans htime.2),
        unmistaken_cut hi.unmistaken (hi.aged.mono htime.1) hcare hdisk⟩
  | converge o faults base head ends =>
    obtain ⟨htime, hs⟩ := Option.ite_none_right_eq_some.mp hs
    obtain ⟨⟨disk, M⟩, hconv, rfl⟩ := Option.map_eq_some_iff.mp hs
    obtain ⟨haged, hu⟩ := hi.converge hC hpub.1 hpub.2 htime hcare hconv
    exact ⟨haged, hu⟩

end

/-- Where file times are exact to a second, or count in steps of two, every edit is prompt. -/
theorem prompt_of_granularity {granularity : Nat} (hpos : 0 < granularity)
    (h : granularity ≤ 1000000000 ∨ granularity = 2000000000) (now : Nat) :
    Prompt granularity now := by
  have hlt : now < now / granularity * granularity + granularity := Nat.lt_div_mul_add hpos
  unfold Prompt clockSecs clockMtime
  dsimp only
  rcases h with h | rfl
  · generalize now / granularity * granularity = tick at hlt ⊢
    omega
  · omega

/-- **When a cached chunk list is the file's own.** From any files and an empty manifest, through any
edits, scans, pulls, local syncs and converges, which may stop at any step: a file that a scan takes for
its recorded entry has the entry's chunk list, if every edit is prompt, every manifest from elsewhere
that is recorded trusts only entries that are old by this device's clock, and no step of a pull, of a
converge or of a scan that retains entries leaves a file that the cache rule takes for an entry with
other bytes. -/
theorem cached_chunks_real {R : ScanRules} {C : Chunker} {granularity : Nat} {device : Text}
    (hC : C.Lawful) {disk : DiskMap} {workspaceId : Text} {now : Nat} {events : List ClockedEvent}
    {s : Clocked} (hrun : Lib.Run (Clocked.step R C granularity device)
      (fun s e => e.Published C ∧ s.Careful R C granularity device e)
      { disk, recorded := .new workspaceId, now } events s) {present : Text → Bool} {p : Text}
    {f : DiskFile} {e : FileEntry} (hf : s.disk[p]? = some f) (he : s.recorded.files[p]? = some e)
    (hreuse : reusable present s.recorded.scannedAtSecs f e = true) : C.names f.bytes = e.chunks := by
  have hstart : Clocked.Inv C { disk, recorded := .new workspaceId, now } :=
    ⟨fun p e he => by simp [Manifest.new] at he, fun p e f he => by simp [Manifest.new] at he⟩
  have hinv : s.Inv C := hrun.invariant (fun _ _ _ hi hc hs => hi.step hC hc.1 hc.2 hs) hstart
  simp only [reusable, Bool.and_eq_true, decide_eq_true_eq] at hreuse
  obtain ⟨⟨⟨⟨hsize, hsecs⟩, hnanos⟩, hsettled⟩, -⟩ := hreuse
  by_contra hnames
  exact hinv.unmistaken p e f he hf ⟨hsize, hsecs, hnanos, hsettled, hnames⟩

/-- An operation that takes no time, between two moments of a test. -/
def testOutside (now : Nat) : Surroundings where
  stamp := []
  stagedAt := now
  ends := now
  present _ := true
  data hash := [[1], [2]].find? (smallChunker.hash · = hash)

/-- A file that was written ten seconds ago. -/
def testEdited : Clocked where
  disk := (∅ : DiskMap).insert "f".toList ⟨[1], 0o644, clockMtime 1000000000 10000000000⟩
  recorded := .new "ws".toList
  now := 20000000000

/-- The same after a scan. -/
def testScanned : Clocked :=
  { testEdited with recorded :=
      testEdited.scanned testRules smallChunker 1000000000 (testOutside 20000000000) .none }

/-- An edit is scanned, and the next scan reuses its chunk list. -/
theorem cached_chunks_real_edit : ∃ s f e,
    Lib.Run (Clocked.step testRules smallChunker 1000000000 "dev".toList)
      (fun s e => e.Published smallChunker ∧
        s.Careful testRules smallChunker 1000000000 "dev".toList e)
      { disk := ∅, recorded := .new "ws".toList, now := 10000000000 }
      [.edit "f".toList [1] 0o644, .wait 20000000000, .scan (testOutside 20000000000) .none true] s ∧
    s.disk["f".toList]? = some f ∧ s.recorded.files["f".toList]? = some e ∧
    reusable (fun _ => true) s.recorded.scannedAtSecs f e = true ∧
    smallChunker.names f.bytes = e.chunks := by
  have hedit : Lib.Run (Clocked.step testRules smallChunker 1000000000 "dev".toList)
      (fun s e => e.Published smallChunker ∧
        s.Careful testRules smallChunker 1000000000 "dev".toList e)
      { disk := ∅, recorded := .new "ws".toList, now := 10000000000 }
      [.edit "f".toList [1] 0o644, .wait 20000000000, .scan (testOutside 20000000000) .none true]
      testScanned := by
    have hwait : ({ testEdited with now := 10000000000 } : Clocked).step testRules smallChunker
        1000000000 "dev".toList (.wait 20000000000) = some testEdited := by
      rw [Clocked.step, if_pos (show 10000000000 ≤ 20000000000 by decide)]
      rfl
    have hscan : testEdited.step testRules smallChunker 1000000000 "dev".toList
        (.scan (testOutside 20000000000) .none true) = some testScanned := by
      rw [Clocked.step, if_pos ⟨Nat.le_refl _, Nat.le_refl _⟩]
      rfl
    refine .cons ⟨trivial, prompt_of_granularity (by decide) (.inl (Nat.le_refl _)) _⟩ rfl
      (.cons ⟨trivial, trivial⟩ hwait (.cons ⟨trivial, fun _ p e f _ he => ?_⟩ hscan (.nil _)))
    simp [testEdited, Manifest.new] at he
  have hreuse : (testScanned.recorded.files["f".toList]?.bind fun e =>
      testScanned.disk["f".toList]?.map fun f =>
        reusable (fun _ => true) testScanned.recorded.scannedAtSecs f e) = some true := by
    decide +kernel
  obtain ⟨e, he, hreuse⟩ := Option.bind_eq_some_iff.mp hreuse
  obtain ⟨f, hf, hreuse⟩ := Option.map_eq_some_iff.mp hreuse
  exact ⟨testScanned, f, e, hedit, hf, he, hreuse,
    cached_chunks_real smallChunker_lawful hedit hf he hreuse⟩

/-- A head from a device whose clock is ahead: one file, changed a second from now. -/
def futureHead : Manifest where
  version := formatVersion
  workspaceId := "ws".toList
  scannedAtSecs := 110
  files := (∅ : FileMap).insert "f".toList
    { size := 1, mode := 0o644, mtimeSecs := 101, mtimeNanos := 0, chunks := smallChunker.names [1] }

theorem genuine_futureHead : Genuine smallChunker futureHead.files := by
  intro p e he
  rw [futureHead, Lib.getElem?_insert_eq] at he
  split at he
  · cases he
    exact ⟨[1], rfl, rfl⟩
  · simp at he

/-- **A scan time from another clock lets a changed file pass.** The head of a device whose clock is
ahead is pulled, and its file is edited when the local clock gets to the file's time: the next scan
reuses the chunk list from before the edit. -/
theorem foreign_scan_reuses : ∃ s f e,
    Lib.Run (Clocked.step testRules smallChunker 1000000000 "dev".toList)
      (fun _ e => e.Published smallChunker)
      { disk := ∅, recorded := .new "ws".toList, now := 100000000000 }
      [.pull (testOutside 100000000000) futureHead none, .wait 101500000000,
        .edit "f".toList [2] 0o644] s ∧
    s.disk["f".toList]? = some f ∧ s.recorded.files["f".toList]? = some e ∧
    reusable (fun _ => true) s.recorded.scannedAtSecs f e = true ∧
    smallChunker.names f.bytes ≠ e.chunks := by
  have hpub : ∀ e ∈ [ClockedEvent.pull (testOutside 100000000000) futureHead none, .wait 101500000000,
      .edit "f".toList [2] 0o644], e.Published smallChunker := by
    simp only [List.mem_cons, List.not_mem_nil, or_false, forall_eq_or_imp, forall_eq]
    refine ⟨⟨genuine_futureHead, fun h d hd => ?_⟩, trivial, trivial⟩
    have hfind := List.find?_some hd
    exact of_decide_eq_true hfind
  have hrun : ((Lib.replay (Clocked.step testRules smallChunker 1000000000 "dev".toList)
      { disk := ∅, recorded := .new "ws".toList, now := 100000000000 }
      [.pull (testOutside 100000000000) futureHead none, .wait 101500000000,
        .edit "f".toList [2] 0o644]).bind fun s => s.disk["f".toList]?.bind fun f =>
          s.recorded.files["f".toList]?.map fun e =>
            reusable (fun _ => true) s.recorded.scannedAtSecs f e &&
              decide (smallChunker.names f.bytes ≠ e.chunks)) = some true := by
    decide +kernel
  obtain ⟨s, hs, hrun⟩ := Option.bind_eq_some_iff.mp hrun
  obtain ⟨f, hf, hrun⟩ := Option.bind_eq_some_iff.mp hrun
  obtain ⟨e, he, hfacts⟩ := Option.map_eq_some_iff.mp hrun
  rw [Bool.and_eq_true, decide_eq_true_eq] at hfacts
  exact ⟨s, f, e, .of_replay (fun _ => hpub) hs, hf, he, hfacts.1, hfacts.2⟩

end Pear
