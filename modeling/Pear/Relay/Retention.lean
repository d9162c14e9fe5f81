import Pear.Text
import Pear.Lib.Runs

/-!
# Checkpoint retention

The `snapshots` table and its pruning (`db.rs`). Every checkpoint that is inserted prunes the others of
its workspace: all of the last hour are kept, then the newest of each hour, then the newest of each day,
up to seven days. The buckets are trailing ones, counted from the time of the insert, so they move from
one insert to the next: a checkpoint that gave way to a newer one of its bucket may later be the only one
that would stand in a window of its own (`sliding_window_empties`). `checkpoint_retention` says what
is kept in every run, and what besides when no insert parts two checkpoints that shared a bucket.
-/

namespace Pear

/-! ## The pruning -/

/-- `HOUR_SECS` -/
def hourSecs : Int := 3600

/-- `DAY_SECS` -/
def daySecs : Int := 24 * hourSecs

/-- `CHECKPOINT_KEEP_SECS` -/
def checkpointKeepSecs : Int := 7 * daySecs

/-- How the pruning takes a checkpoint. -/
inductive Tier where
  | lastHour
  | bucket (tier : Nat) (k : Int)
  | pastKeep
deriving DecidableEq

/-- The bucket of a checkpoint by its age. -/
def tierOf (now createdAt : Int) : Tier :=
  let age := now - createdAt
  if age < hourSecs then .lastHour
  else if age ≥ checkpointKeepSecs then .pastKeep
  else if age < daySecs then .bucket 1 (age / hourSecs)
  else .bucket 2 (age / daySecs)

/-- The loop's state: the newest `(created_at, id)` of each bucket so far, and the ids to delete. -/
structure Pruning where
  newest : Nat × Int → Option (Int × Int)
  prune : List Int

/-- The order of `(created_at, id)`. -/
def notNewer (a b : Int × Int) : Bool := a.1 < b.1 || (a.1 = b.1 && a.2 ≤ b.2)

/-- One checkpoint, an id and its time. -/
def pruneStep (now : Int) (acc : Pruning) (e : Int × Int) : Pruning :=
  match tierOf now e.2 with
  | .lastHour => acc
  | .pastKeep => { acc with prune := acc.prune ++ [e.1] }
  | .bucket tier k =>
    match acc.newest (tier, k) with
    | some best =>
      if notNewer (e.2, e.1) best then { acc with prune := acc.prune ++ [e.1] }
      else
        { newest := Function.update acc.newest (tier, k) (some (e.2, e.1))
          prune := acc.prune ++ [best.2] }
    | none => { acc with newest := Function.update acc.newest (tier, k) (some (e.2, e.1)) }

/-- `checkpoints_to_prune` -/
def checkpointsToPrune (now : Int) (checkpoints : List (Int × Int)) : List Int :=
  (checkpoints.foldl (pruneStep now) ⟨fun _ => none, []⟩).prune.insertionSort (· ≤ ·)

/-! ## The table -/

/-- The `kind` column. -/
inductive SnapshotKind where
  | named
  | checkpoint
deriving DecidableEq

/-- What a snapshot row carries besides its workspace and id (`NewSnapshot`). -/
structure NewSnapshot where
  name : Option Text
  kind : SnapshotKind
  device : Text
  createdAt : Int
  manifest : Text
  refs : List Text
deriving DecidableEq

/-- A row of `snapshots`. -/
structure SnapshotRecord where
  workspace : Text
  id : Int
  name : Option Text
  kind : SnapshotKind
  device : Text
  createdAt : Int
  manifest : Text
deriving DecidableEq

/-- The tables that a snapshot writes. -/
structure SnapshotTables where
  snapshots : List SnapshotRecord
  /-- `chunk_refs`: workspace and hash. -/
  chunkRefs : List (Text × Text)
deriving DecidableEq

/-- The row of a snapshot under an id. -/
def NewSnapshot.row (new : NewSnapshot) (ws : Text) (id : Int) : SnapshotRecord :=
  { workspace := ws, id, name := new.name, kind := new.kind, device := new.device,
    createdAt := new.createdAt, manifest := new.manifest }

namespace SnapshotTables

/-- The rows of a workspace. -/
def rows (db : SnapshotTables) (ws : Text) : List SnapshotRecord :=
  db.snapshots.filter (·.workspace = ws)

/-- `SELECT COALESCE(MAX(id), 0) + 1` -/
def nextId (db : SnapshotTables) (ws : Text) : Int := ((db.rows ws).map (·.id)).max?.getD 0 + 1

/-- `SELECT id, created_at … AND kind = 'checkpoint'` -/
def checkpoints (db : SnapshotTables) (ws : Text) : List (Int × Int) :=
  ((db.rows ws).filter (·.kind = .checkpoint)).map fun r => (r.id, r.createdAt)

/-- `DELETE FROM snapshots WHERE workspace_id = … AND id = …`, for each of the ids. -/
def delete (db : SnapshotTables) (ws : Text) (doomed : List Int) : SnapshotTables :=
  { db with snapshots := db.snapshots.filter fun r => !(r.workspace = ws && r.id ∈ doomed) }

/-- `INSERT INTO snapshots`, and the references. -/
def insertRow (db : SnapshotTables) (ws : Text) (new : NewSnapshot) : SnapshotTables where
  snapshots := db.snapshots ++ [new.row ws (db.nextId ws)]
  chunkRefs := new.refs.foldl
    (fun refs h => if (ws, h) ∈ refs then refs else (ws, h) :: refs) db.chunkRefs

/-- The retention of an insert at a time. -/
def pruned (db : SnapshotTables) (ws : Text) (now : Int) : SnapshotTables :=
  db.delete ws (checkpointsToPrune now (db.checkpoints ws))

/-- `insert_snapshot`: the row and its references, the pruning when it is a checkpoint, and the id. The
transaction is one step. -/
def insertSnapshot (db : SnapshotTables) (ws : Text) (new : NewSnapshot) : SnapshotTables × Int :=
  let id := db.nextId ws
  let db := db.insertRow ws new
  (if new.kind = .checkpoint then db.pruned ws new.createdAt else db, id)

end SnapshotTables

/-! ## Runs of inserts -/

/-- An insert into a workspace. -/
structure SnapshotInsert where
  workspace : Text
  snapshot : NewSnapshot
deriving DecidableEq

/-- The tables with all the rows ever inserted, oldest first. -/
structure SnapshotSystem where
  db : SnapshotTables
  log : List SnapshotRecord
deriving DecidableEq

namespace SnapshotSystem

/-- A row is a checkpoint of a workspace. -/
def IsCheckpoint (ws : Text) (r : SnapshotRecord) : Prop := r.workspace = ws ∧ r.kind = .checkpoint

instance (ws : Text) (r : SnapshotRecord) : Decidable (IsCheckpoint ws r) :=
  inferInstanceAs (Decidable (_ ∧ _))

/-- The last checkpoint inserted into a workspace. -/
def lastCheckpoint (s : SnapshotSystem) (ws : Text) : Option SnapshotRecord :=
  (s.log.filter (IsCheckpoint ws)).getLast?

/-- One insert. -/
def step (s : SnapshotSystem) (e : SnapshotInsert) : Option SnapshotSystem :=
  let (db, id) := s.db.insertSnapshot e.workspace e.snapshot
  some { db, log := s.log ++ [e.snapshot.row e.workspace id] }

/-- A relay without snapshots. -/
def boot (chunkRefs : List (Text × Text)) : SnapshotSystem where
  db := { snapshots := [], chunkRefs }
  log := []

/-- The times of the checkpoints inserted into a workspace. -/
def times (s : SnapshotSystem) (ws : Text) : List Int :=
  (s.log.filter (IsCheckpoint ws)).map (·.createdAt)

end SnapshotSystem

/-! ## What is promised -/

/-- What is kept of the checkpoints of a workspace whatever their times, after an insert at the time of
the last one: all of the last hour and nothing past seven days, this one itself, and what is named. -/
structure SnapshotSystem.KeepsRecent (s : SnapshotSystem) (ws : Text) (last : SnapshotRecord) :
    Prop where
  lastHour : ∀ r ∈ s.log, IsCheckpoint ws r → last.createdAt - r.createdAt < hourSecs →
    r ∈ s.db.snapshots
  week : ∀ r ∈ s.db.snapshots, IsCheckpoint ws r →
    last.createdAt - r.createdAt < checkpointKeepSecs
  inserted : last ∈ s.db.snapshots
  named : ∀ r ∈ s.log, r.workspace = ws → r.kind = .named → r ∈ s.db.snapshots

/-- Each of the last 24 hours and of the last 7 days in which a checkpoint was inserted has one. -/
structure SnapshotSystem.KeepsWindows (s : SnapshotSystem) (ws : Text) (last : SnapshotRecord) :
    Prop where
  hours : ∀ k : Int, 0 ≤ k → k < 24 →
    (∃ r ∈ s.log, IsCheckpoint ws r ∧ (last.createdAt - r.createdAt) / hourSecs = k) →
    ∃ r ∈ s.db.snapshots, IsCheckpoint ws r ∧ (last.createdAt - r.createdAt) / hourSecs = k
  days : ∀ k : Int, 0 ≤ k → k < 7 →
    (∃ r ∈ s.log, IsCheckpoint ws r ∧ (last.createdAt - r.createdAt) / daySecs = k) →
    ∃ r ∈ s.db.snapshots, IsCheckpoint ws r ∧ (last.createdAt - r.createdAt) / daySecs = k

/-- An insert finds two checkpoints in one bucket. -/
def SameBucket (now a b : Int) : Prop :=
  tierOf now a = tierOf now b ∧ tierOf now a ≠ .lastHour ∧ tierOf now a ≠ .pastKeep

instance (now a b : Int) : Decidable (SameBucket now a b) := inferInstanceAs (Decidable (_ ∧ _))

/-- Two checkpoints, the first not the newer one, are in one window: in one hour while the first is
less than a day old, and in one day while it is less than seven. -/
def SameWindows (now a b : Int) : Prop :=
  (now - a < daySecs → (now - a) / hourSecs = (now - b) / hourSecs) ∧
    (now - a < checkpointKeepSecs → (now - a) / daySecs = (now - b) / daySecs)

instance (now a b : Int) : Decidable (SameWindows now a b) :=
  inferInstanceAs (Decidable ((_ → _) ∧ (_ → _)))

/-- No two checkpoints that an insert found in one bucket are in different windows now. -/
def PartsNone (times : List Int) (now : Int) : Prop :=
  ∀ m ∈ times, ∀ a ∈ times, ∀ b ∈ times, a ≤ b → SameBucket m a b → SameWindows now a b

instance (times : List Int) (now : Int) : Decidable (PartsNone times now) :=
  inferInstanceAs (Decidable (∀ m ∈ times, ∀ a ∈ times, ∀ b ∈ times, _ → _ → _))

namespace SnapshotSystem

/-- A checkpoint of a workspace is not older than those before it. -/
def InOrder (ws : Text) (s : SnapshotSystem) (e : SnapshotInsert) : Prop :=
  e.workspace = ws → e.snapshot.kind = .checkpoint → ∀ m ∈ s.times ws, m ≤ e.snapshot.createdAt

instance (ws : Text) (s : SnapshotSystem) (e : SnapshotInsert) : Decidable (InOrder ws s e) :=
  inferInstanceAs (Decidable (_ → _ → ∀ m ∈ s.times ws, _))

/-- Besides, it parts no two that shared a bucket. -/
def KeepsTogether (ws : Text) (s : SnapshotSystem) (e : SnapshotInsert) : Prop :=
  InOrder ws s e ∧ (e.workspace = ws → e.snapshot.kind = .checkpoint →
    PartsNone (s.times ws) e.snapshot.createdAt)

instance (ws : Text) (s : SnapshotSystem) (e : SnapshotInsert) : Decidable (KeepsTogether ws s e) :=
  inferInstanceAs (Decidable (InOrder ws s e ∧ (_ → _ → _)))

end SnapshotSystem

/-! ## What one pruning does -/

section
variable {now : Int} {a b c : Int × Int} {seen cps : List (Int × Int)} {acc : Pruning}

theorem notNewer_iff : notNewer a b = true ↔ a.1 < b.1 ∨ a.1 = b.1 ∧ a.2 ≤ b.2 := by
  simp [notNewer]

theorem notNewer_trans (h : notNewer a b = true) (h' : notNewer b c = true) :
    notNewer a c = true := by
  rw [notNewer_iff] at *
  omega

theorem notNewer_of_not (h : ¬ notNewer a b = true) : notNewer b a = true := by
  rw [notNewer_iff] at *
  omega

/-- The loop keeps a checkpoint that it has seen: one of the last hour, or the newest of its bucket. -/
def Pruning.Keeps (acc : Pruning) (now : Int) (e : Int × Int) : Prop :=
  match tierOf now e.2 with
  | .lastHour => True
  | .pastKeep => False
  | .bucket tier k => acc.newest (tier, k) = some (e.2, e.1)

/-- What the loop knows of the checkpoints it has seen: the newest of each bucket, and which ones are to
be deleted. -/
structure Pruning.Knows (acc : Pruning) (now : Int) (seen : List (Int × Int)) : Prop where
  newest : ∀ tier k x, acc.newest (tier, k) = some x →
    (x.2, x.1) ∈ seen ∧ tierOf now x.1 = .bucket tier k
  found : ∀ e ∈ seen, ∀ tier k, tierOf now e.2 = .bucket tier k →
    ∃ x, acc.newest (tier, k) = some x ∧ notNewer (e.2, e.1) x = true
  prune : ∀ id, id ∈ acc.prune ↔ ∃ e ∈ seen, e.1 = id ∧ ¬ acc.Keeps now e

/-- What a checkpoint does to the loop: nothing, its own deletion, or it takes the place of the newest
of its bucket. -/
theorem pruneStep_cases (acc : Pruning) (now : Int) (e : Int × Int) :
    (tierOf now e.2 = .lastHour ∧ pruneStep now acc e = acc) ∨
    ((tierOf now e.2 = .pastKeep ∨ ∃ tier k best, tierOf now e.2 = .bucket tier k ∧
        acc.newest (tier, k) = some best ∧ notNewer (e.2, e.1) best = true) ∧
      pruneStep now acc e = { acc with prune := acc.prune ++ [e.1] }) ∨
    ∃ tier k, tierOf now e.2 = .bucket tier k ∧
      (∀ best, acc.newest (tier, k) = some best → notNewer best (e.2, e.1) = true) ∧
      pruneStep now acc e =
        { newest := Function.update acc.newest (tier, k) (some (e.2, e.1))
          prune := acc.prune ++ ((acc.newest (tier, k)).map (·.2)).toList } := by
  unfold pruneStep
  cases htier : tierOf now e.2 with
  | lastHour => exact .inl ⟨rfl, rfl⟩
  | pastKeep => exact .inr (.inl ⟨.inl rfl, rfl⟩)
  | bucket tier k =>
    dsimp only
    cases hbest : acc.newest (tier, k) with
    | none => exact .inr (.inr ⟨tier, k, rfl, by simp [hbest], by simp [hbest]⟩)
    | some best =>
      by_cases hnewer : notNewer (e.2, e.1) best = true
      · exact .inr (.inl ⟨.inr ⟨tier, k, best, rfl, hbest, hnewer⟩, by simp [hnewer]⟩)
      · refine .inr (.inr ⟨tier, k, rfl, ?_, by simp [hnewer, hbest]⟩)
        rintro best' hbest'
        cases hbest.symm.trans hbest'
        exact notNewer_of_not hnewer

/-- What is kept depends on the newest of the buckets. -/
theorem Pruning.keeps_congr {acc' : Pruning} {e : Int × Int} (h : acc'.newest = acc.newest) :
    acc'.Keeps now e ↔ acc.Keeps now e := by
  unfold Pruning.Keeps
  rw [h]

/-- One checkpoint more, of an id that was not seen. -/
theorem Pruning.Knows.step {e : Int × Int} (h : acc.Knows now seen)
    (hfresh : e.1 ∉ seen.map (·.1)) : (pruneStep now acc e).Knows now (seen ++ [e]) := by
  have hne : ∀ x ∈ seen, x.1 ≠ e.1 := fun x hx heq => hfresh (heq ▸ List.mem_map_of_mem hx)
  rcases pruneStep_cases acc now e with ⟨htier, hstep⟩ | ⟨hdrop, hstep⟩ | ⟨tier, k, htier, hbest, hstep⟩
  · rw [hstep]
    have hkeep : acc.Keeps now e := by
      unfold Pruning.Keeps
      rw [htier]
      trivial
    refine ⟨fun tier k x hx => ?_, ?_, fun id => ?_⟩
    · exact ⟨List.mem_append_left _ (h.newest tier k x hx).1, (h.newest tier k x hx).2⟩
    · simp only [List.forall_mem_append, List.forall_mem_singleton, htier, reduceCtorEq,
        false_implies, implies_true, and_true]
      exact h.found
    · rw [h.prune id]
      simp [or_and_right, exists_or, hkeep]
  · have hgone : ¬ acc.Keeps now e := by
      unfold Pruning.Keeps
      rcases hdrop with htier | ⟨tier, k, best, htier, hbest, -⟩
      · rw [htier]
        exact id
      · rw [htier]
        intro heq
        exact hne _ (h.newest tier k _ heq).1 rfl
    have hsame : ∀ x, (pruneStep now acc e).Keeps now x ↔ acc.Keeps now x := fun x =>
      Pruning.keeps_congr (by rw [hstep])
    refine ⟨fun tier k x hx => ?_, ?_, fun id => ?_⟩
    · rw [hstep] at hx
      exact ⟨List.mem_append_left _ (h.newest tier k x hx).1, (h.newest tier k x hx).2⟩
    · rw [hstep, List.forall_mem_append, List.forall_mem_singleton]
      refine ⟨h.found, fun tier k htier => ?_⟩
      rcases hdrop with hpast | ⟨tier', k', best, hbucket, hbest, hnewer⟩
      · rw [htier] at hpast
        cases hpast
      · rw [htier] at hbucket
        cases hbucket
        exact ⟨best, hbest, hnewer⟩
    · simp only [hsame]
      rw [hstep, List.mem_append, List.mem_singleton, h.prune id]
      simp [or_and_right, exists_or, hgone, eq_comm]
  · have hself : (pruneStep now acc e).newest (tier, k) = some (e.2, e.1) := by
      rw [hstep]
      exact Function.update_self _ _ _
    have hother : ∀ tier' k', (tier', k') ≠ (tier, k) →
        (pruneStep now acc e).newest (tier', k') = acc.newest (tier', k') := by
      intro tier' k' hother
      rw [hstep]
      exact Function.update_of_ne hother _ _
    -- the one it takes the place of is no longer kept
    have hkeeps : ∀ x ∈ seen, (pruneStep now acc e).Keeps now x ↔
        acc.Keeps now x ∧ acc.newest (tier, k) ≠ some (x.2, x.1) := by
      intro x hx
      by_cases hxb : tierOf now x.2 = .bucket tier k
      · unfold Pruning.Keeps
        rw [hxb]
        dsimp only
        rw [hself]
        constructor
        · intro heq
          exact absurd (congrArg Prod.snd (Option.some.inj heq)).symm (hne x hx)
        · exact fun h => absurd h.1 h.2
      · have hrest : acc.newest (tier, k) ≠ some (x.2, x.1) :=
          fun heq => hxb (h.newest tier k _ heq).2
        have hsame : (pruneStep now acc e).Keeps now x ↔ acc.Keeps now x := by
          unfold Pruning.Keeps
          cases hxt : tierOf now x.2 with
          | lastHour => exact Iff.rfl
          | pastKeep => exact Iff.rfl
          | bucket tier' k' =>
            dsimp only
            rw [hother]
            rintro ⟨⟩
            exact hxb hxt
        rw [hsame]
        exact ⟨fun hk => ⟨hk, hrest⟩, And.left⟩
    have hkeep : (pruneStep now acc e).Keeps now e := by
      unfold Pruning.Keeps
      rw [htier]
      exact hself
    refine ⟨fun tier' k' x hx => ?_, ?_, fun id => ?_⟩
    · by_cases heq : (tier', k') = (tier, k)
      · cases heq
        rw [hself] at hx
        cases hx
        exact ⟨List.mem_append_right _ (List.mem_singleton.mpr rfl), htier⟩
      · rw [hother _ _ heq] at hx
        exact ⟨List.mem_append_left _ (h.newest _ _ x hx).1, (h.newest _ _ x hx).2⟩
    · rw [List.forall_mem_append, List.forall_mem_singleton]
      refine ⟨fun x hx tier' k' hxt => ?_, fun tier' k' hxt => ?_⟩
      · obtain ⟨best, hfound, hle⟩ := h.found x hx tier' k' hxt
        by_cases heq : (tier', k') = (tier, k)
        · cases heq
          exact ⟨_, hself, notNewer_trans hle (hbest best hfound)⟩
        · exact ⟨best, (hother _ _ heq).trans hfound, hle⟩
      · rw [htier] at hxt
        cases hxt
        exact ⟨_, hself, notNewer_iff.mpr (.inr ⟨rfl, Int.le_refl _⟩)⟩
    · have hprune : id ∈ (pruneStep now acc e).prune ↔
          id ∈ acc.prune ∨ ∃ x, acc.newest (tier, k) = some x ∧ x.2 = id := by
        rw [hstep]
        simp
      rw [hprune, h.prune id]
      constructor
      · rintro (⟨x, hx, hid, hgone⟩ | ⟨best, hfound, hid⟩)
        · exact ⟨x, List.mem_append_left _ hx, hid, fun hk => hgone ((hkeeps x hx).mp hk).1⟩
        · have hin := (h.newest tier k best hfound).1
          exact ⟨_, List.mem_append_left _ hin, hid, fun hk => ((hkeeps _ hin).mp hk).2 hfound⟩
      · rintro ⟨x, hx, hid, hgone⟩
        rcases List.mem_append.mp hx with hx | hx
        · by_cases hk : acc.Keeps now x
          · rw [hkeeps x hx] at hgone
            have hfound := not_not.mp fun hne => hgone ⟨hk, hne⟩
            exact .inr ⟨_, hfound, hid⟩
          · exact .inl ⟨x, hx, hid, hk⟩
        · rw [List.mem_singleton.mp hx] at hgone
          exact absurd hkeep hgone

/-- The loop, from what it knows. -/
theorem Pruning.Knows.foldl (h : acc.Knows now seen) (hids : ((seen ++ cps).map (·.1)).Nodup) :
    (cps.foldl (pruneStep now) acc).Knows now (seen ++ cps) := by
  induction cps generalizing seen acc with
  | nil => rwa [List.append_nil]
  | cons e cps ih =>
    have hsplit : seen ++ e :: cps = (seen ++ [e]) ++ cps := by simp
    rw [hsplit] at hids ⊢
    have hfresh : e.1 ∉ seen.map (·.1) := by
      rw [List.map_append, List.map_append, List.append_assoc] at hids
      intro hmem
      exact (List.nodup_append.mp hids).2.2 _ hmem _ (by simp) rfl
    exact ih (h.step hfresh) hids

/-- The loop's end knows all checkpoints, and what it has to delete is pruned. -/
theorem exists_knows (now : Int) (hids : (cps.map (·.1)).Nodup) :
    ∃ acc : Pruning, acc.Knows now cps ∧ ∀ id, id ∈ checkpointsToPrune now cps ↔ id ∈ acc.prune := by
  have hinit : Pruning.Knows ⟨fun _ => none, []⟩ now [] := ⟨nofun, nofun, fun id => by simp⟩
  have hknows : (cps.foldl (pruneStep now) ⟨fun _ => none, []⟩).Knows now ([] ++ cps) :=
    hinit.foldl hids
  rw [List.nil_append] at hknows
  exact ⟨_, hknows, fun id => List.mem_insertionSort _⟩

/-- What the loop has to delete, by id, is what it does not keep. -/
theorem Pruning.Knows.mem_prune_iff (h : acc.Knows now cps) (hids : (cps.map (·.1)).Nodup)
    {e : Int × Int} (he : e ∈ cps) : e.1 ∈ acc.prune ↔ ¬ acc.Keeps now e := by
  rw [h.prune]
  constructor
  · rintro ⟨x, hx, hid, hgone⟩
    rwa [← List.inj_on_of_nodup_map hids hx he hid]
  · exact fun hgone => ⟨e, he, rfl, hgone⟩

/-- Only a checkpoint is pruned. -/
theorem mem_of_mem_checkpointsToPrune (hids : (cps.map (·.1)).Nodup) {id : Int}
    (h : id ∈ checkpointsToPrune now cps) : ∃ e ∈ cps, e.1 = id := by
  obtain ⟨acc, hknows, hprune⟩ := exists_knows now hids
  obtain ⟨e, he, hid, -⟩ := (hknows.prune id).mp ((hprune id).mp h)
  exact ⟨e, he, hid⟩

/-- **What is pruned**, of checkpoints with different ids: those past seven days, and those that have a
newer one in their bucket. -/
theorem mem_checkpointsToPrune (hids : (cps.map (·.1)).Nodup) {e : Int × Int} (he : e ∈ cps) :
    e.1 ∈ checkpointsToPrune now cps ↔ tierOf now e.2 = .pastKeep ∨
      SameBucket now e.2 e.2 ∧ ∃ x ∈ cps, x ≠ e ∧ tierOf now x.2 = tierOf now e.2 ∧
        notNewer (e.2, e.1) (x.2, x.1) = true := by
  obtain ⟨acc, hknows, hprune⟩ := exists_knows now hids
  rw [hprune, hknows.mem_prune_iff hids he]
  unfold Pruning.Keeps SameBucket
  cases htier : tierOf now e.2 with
  | lastHour => simp
  | pastKeep => simp
  | bucket tier k =>
    obtain ⟨best, hbest, hle⟩ := hknows.found e he tier k htier
    obtain ⟨hin, hbucket⟩ := hknows.newest tier k best hbest
    dsimp only
    rw [hbest]
    constructor
    · intro hne
      refine .inr ⟨⟨rfl, nofun, nofun⟩, (best.2, best.1), hin, fun heq => hne ?_, hbucket, hle⟩
      rw [← heq]
    · rintro (h | ⟨-, x, hx, hne, hxt, hnewer⟩) heq
      · cases h
      · obtain ⟨best', hbest', hle'⟩ := hknows.found x hx tier k hxt
        cases hbest.symm.trans hbest'
        cases heq
        rw [notNewer_iff] at hnewer hle'
        dsimp only at hnewer hle'
        exact hne (Prod.ext (by omega) (by omega))

/-- **A bucket keeps its newest**: what is not past seven days is kept, or has a newer one in its bucket
that is. -/
theorem exists_kept (hids : (cps.map (·.1)).Nodup) {e : Int × Int} (he : e ∈ cps)
    (hpast : tierOf now e.2 ≠ .pastKeep) : ∃ x ∈ cps, x.1 ∉ checkpointsToPrune now cps ∧
      (x = e ∨ e.2 ≤ x.2 ∧ SameBucket now e.2 x.2) := by
  obtain ⟨acc, hknows, hprune⟩ := exists_knows now hids
  cases htier : tierOf now e.2 with
  | lastHour =>
    refine ⟨e, he, ?_, .inl rfl⟩
    rw [hprune, hknows.mem_prune_iff hids he, not_not]
    unfold Pruning.Keeps
    rw [htier]
    trivial
  | pastKeep => exact absurd htier hpast
  | bucket tier k =>
    obtain ⟨best, hbest, hle⟩ := hknows.found e he tier k htier
    obtain ⟨hin, hbucket⟩ := hknows.newest tier k best hbest
    refine ⟨(best.2, best.1), hin, ?_, .inr ⟨?_, ?_⟩⟩
    · rw [hprune, hknows.mem_prune_iff hids hin, not_not]
      unfold Pruning.Keeps
      dsimp only
      rw [hbucket]
      exact hbest
    · rw [notNewer_iff] at hle
      dsimp only at hle ⊢
      omega
    · exact ⟨htier.trans hbucket.symm, by rw [htier]; nofun, by rw [htier]; nofun⟩

end

theorem tierOf_eq_lastHour_iff {now createdAt : Int} :
    tierOf now createdAt = .lastHour ↔ now - createdAt < hourSecs := by
  unfold tierOf
  dsimp only
  split
  · simp [*]
  · split
    · simp [*]
    · split <;> simp [*]

theorem tierOf_eq_pastKeep_iff {now createdAt : Int} :
    tierOf now createdAt = .pastKeep ↔ checkpointKeepSecs ≤ now - createdAt := by
  unfold tierOf checkpointKeepSecs daySecs hourSecs
  dsimp only
  split
  · rename_i h
    refine ⟨nofun, fun h' => ?_⟩
    omega
  · split
    · rename_i h
      exact ⟨fun _ => h, fun _ => rfl⟩
    · rename_i h
      split
      · exact ⟨nofun, fun h' => absurd h' h⟩
      · exact ⟨nofun, fun h' => absurd h' h⟩

/-! ## What the statements do -/

namespace SnapshotTables

open SnapshotSystem (IsCheckpoint)

section
variable {db : SnapshotTables} {ws : Text} {r : SnapshotRecord} {now : Int}

theorem mem_rows : r ∈ db.rows ws ↔ r ∈ db.snapshots ∧ r.workspace = ws := by
  rw [rows, List.mem_filter, decide_eq_true_eq]

/-- The checkpoints that the pruning reads. -/
theorem mem_checkpoints {e : Int × Int} : e ∈ db.checkpoints ws ↔
    ∃ r ∈ db.snapshots, IsCheckpoint ws r ∧ e = (r.id, r.createdAt) := by
  unfold checkpoints IsCheckpoint
  simp only [List.mem_map, List.mem_filter, mem_rows, decide_eq_true_eq]
  constructor
  · rintro ⟨r, ⟨⟨hr, hws⟩, hkind⟩, rfl⟩
    exact ⟨r, hr, ⟨hws, hkind⟩, rfl⟩
  · rintro ⟨r, hr, ⟨hws, hkind⟩, rfl⟩
    exact ⟨r, ⟨⟨hr, hws⟩, hkind⟩, rfl⟩

/-- A new id is above all ids of its workspace. -/
theorem lt_nextId (hr : r ∈ db.rows ws) : r.id < db.nextId ws := by
  unfold nextId
  cases hmax : ((db.rows ws).map (·.id)).max? with
  | none =>
    rw [List.max?_eq_none_iff, List.map_eq_nil_iff] at hmax
    rw [hmax] at hr
    cases hr
  | some m =>
    have hle := (List.max?_eq_some_iff.mp hmax).2 r.id (List.mem_map_of_mem hr)
    rw [Option.getD_some]
    omega

theorem mem_pruned : r ∈ (db.pruned ws now).snapshots ↔
    r ∈ db.snapshots ∧ ¬ (r.workspace = ws ∧ r.id ∈ checkpointsToPrune now (db.checkpoints ws)) := by
  simp only [pruned, delete, List.mem_filter, Bool.not_eq_true', Bool.and_eq_false_iff,
    decide_eq_false_iff_not, not_and_or]

/-- A checkpoint stays by its id. -/
theorem mem_pruned_checkpoint (hr : r ∈ db.snapshots) (hc : IsCheckpoint ws r) :
    r ∈ (db.pruned ws now).snapshots ↔ r.id ∉ checkpointsToPrune now (db.checkpoints ws) := by
  rw [mem_pruned]
  exact ⟨fun h hd => h.2 ⟨hc.1, hd⟩, fun h => ⟨hr, fun hd => h hd.2⟩⟩

variable (hids : ((db.rows ws).map (·.id)).Nodup)
include hids

theorem nodup_checkpoints : ((db.checkpoints ws).map (·.1)).Nodup := by
  unfold checkpoints
  rw [List.map_map]
  exact hids.sublist (List.filter_sublist.map _)

/-- What is no checkpoint of the workspace is not pruned. -/
theorem mem_pruned_of_not_checkpoint (hr : r ∈ db.snapshots) (hc : ¬ IsCheckpoint ws r) :
    r ∈ (db.pruned ws now).snapshots := by
  refine mem_pruned.mpr ⟨hr, ?_⟩
  rintro ⟨hws, hdoomed⟩
  obtain ⟨e, he, hid⟩ := mem_of_mem_checkpointsToPrune (nodup_checkpoints hids) hdoomed
  obtain ⟨r', hr', hc', rfl⟩ := mem_checkpoints.mp he
  have hsame : r' = r := List.inj_on_of_nodup_map hids (mem_rows.mpr ⟨hr', hc'.1⟩)
    (mem_rows.mpr ⟨hr, hws⟩) hid
  exact hc (hsame ▸ hc')

/-- A checkpoint of the last hour stays. -/
theorem mem_pruned_of_lastHour (hr : r ∈ db.snapshots) (hc : IsCheckpoint ws r)
    (hage : now - r.createdAt < hourSecs) : r ∈ (db.pruned ws now).snapshots := by
  have hlast := tierOf_eq_lastHour_iff.mpr hage
  rw [mem_pruned_checkpoint hr hc, mem_checkpointsToPrune (nodup_checkpoints hids)
    (mem_checkpoints.mpr ⟨r, hr, hc, rfl⟩)]
  rintro (hpast | ⟨hbucket, -⟩)
  · rw [hlast] at hpast
    cases hpast
  · exact hbucket.2.1 hlast

/-- One that stays is not past seven days. -/
theorem age_of_mem_pruned (hr : r ∈ (db.pruned ws now).snapshots) (hc : IsCheckpoint ws r) :
    now - r.createdAt < checkpointKeepSecs := by
  have hin := (mem_pruned.mp hr).1
  rw [mem_pruned_checkpoint hin hc, mem_checkpointsToPrune (nodup_checkpoints hids)
    (mem_checkpoints.mpr ⟨r, hin, hc, rfl⟩), tierOf_eq_pastKeep_iff, not_or] at hr
  omega

/-- For one that is not past seven days, itself or a newer one of its bucket stays. -/
theorem exists_mem_pruned (hr : r ∈ db.snapshots) (hc : IsCheckpoint ws r)
    (hage : now - r.createdAt < checkpointKeepSecs) :
    ∃ r' ∈ (db.pruned ws now).snapshots, IsCheckpoint ws r' ∧
      (r' = r ∨ r.createdAt ≤ r'.createdAt ∧ SameBucket now r.createdAt r'.createdAt) := by
  have hpast : tierOf now r.createdAt ≠ .pastKeep := fun h => by
    have := tierOf_eq_pastKeep_iff.mp h
    omega
  obtain ⟨x, hx, hkept, hwhich⟩ := exists_kept (nodup_checkpoints hids)
    (mem_checkpoints.mpr ⟨r, hr, hc, rfl⟩) hpast
  obtain ⟨r', hr', hc', rfl⟩ := mem_checkpoints.mp hx
  refine ⟨r', (mem_pruned_checkpoint hr' hc').mpr hkept, hc', hwhich.imp (fun heq => ?_) id⟩
  exact List.inj_on_of_nodup_map hids (mem_rows.mpr ⟨hr', hc'.1⟩) (mem_rows.mpr ⟨hr, hc.1⟩)
    (congrArg Prod.fst heq)

end

end SnapshotTables

/-! ## What an insert keeps -/

namespace SnapshotSystem

/-- The row that an insert adds. -/
def newRow (s : SnapshotSystem) (e : SnapshotInsert) : SnapshotRecord :=
  e.snapshot.row e.workspace (s.db.nextId e.workspace)

/-- What every run whose checkpoints are in order keeps of a workspace. -/
structure RetentionInv (ws : Text) (s : SnapshotSystem) : Prop where
  logged : s.db.snapshots.Sublist s.log
  ascending : (s.log.filter (·.workspace = ws)).Pairwise (·.id < ·.id)
  newest : ∀ r ∈ s.log, r.workspace = ws → ∃ r' ∈ s.db.snapshots, r'.workspace = ws ∧ r.id ≤ r'.id
  named : ∀ r ∈ s.log, r.workspace = ws → r.kind = .named → r ∈ s.db.snapshots
  recent : ∀ last, s.lastCheckpoint ws = some last → s.KeepsRecent ws last ∧
    ∀ m ∈ s.times ws, m ≤ last.createdAt

section
variable {ws : Text} {s s' : SnapshotSystem} {e : SnapshotInsert} {r last : SnapshotRecord}

theorem mem_times {m : Int} :
    m ∈ s.times ws ↔ ∃ r ∈ s.log, IsCheckpoint ws r ∧ r.createdAt = m := by
  unfold times
  simp only [List.mem_map, List.mem_filter, decide_eq_true_eq]
  constructor
  · rintro ⟨r, ⟨hr, hc⟩, rfl⟩
    exact ⟨r, hr, hc, rfl⟩
  · rintro ⟨r, hr, hc, rfl⟩
    exact ⟨r, ⟨hr, hc⟩, rfl⟩

theorem mem_of_lastCheckpoint (h : s.lastCheckpoint ws = some last) :
    last ∈ s.log ∧ IsCheckpoint ws last := by
  have hmem := List.mem_of_getLast? h
  rw [List.mem_filter, decide_eq_true_eq] at hmem
  exact hmem

/-- Where there is a checkpoint, there is a last one. -/
theorem exists_lastCheckpoint (hr : r ∈ s.log) (hc : IsCheckpoint ws r) :
    ∃ last, s.lastCheckpoint ws = some last := by
  have hne : s.log.filter (IsCheckpoint ws) ≠ [] :=
    List.ne_nil_of_mem (List.mem_filter.mpr ⟨hr, decide_eq_true hc⟩)
  exact ⟨_, List.getLast?_eq_getLast_of_ne_nil hne⟩

/-- What an insert does. -/
theorem step_eq (h : s.step e = some s') : s'.log = s.log ++ [s.newRow e] ∧
    s'.db = if e.snapshot.kind = .checkpoint then
      (s.db.insertRow e.workspace e.snapshot).pruned e.workspace e.snapshot.createdAt
      else s.db.insertRow e.workspace e.snapshot := by
  cases h
  exact ⟨rfl, rfl⟩

/-- Nothing is stored but what was and the new row. -/
theorem sublist_of_step (h : s.step e = some s') :
    s'.db.snapshots.Sublist (s.db.snapshots ++ [s.newRow e]) := by
  rw [(step_eq h).2]
  split
  · exact List.filter_sublist
  · exact List.Sublist.refl _

/-- The rows of other workspaces stay. -/
theorem mem_of_step_other (h : s.step e = some s') (hr : r ∈ s.db.snapshots)
    (hws : r.workspace ≠ e.workspace) : r ∈ s'.db.snapshots := by
  have hin : r ∈ (s.db.insertRow e.workspace e.snapshot).snapshots := List.mem_append_left _ hr
  rw [(step_eq h).2]
  split
  · exact SnapshotTables.mem_pruned.mpr ⟨hin, fun hd => hws hd.1⟩
  · exact hin

theorem newRow_createdAt : (s.newRow e).createdAt = e.snapshot.createdAt := rfl

/-- An insert that is no checkpoint of the workspace leaves its checkpoints. -/
theorem step_quiet (h : s.step e = some s') (hquiet : ¬ IsCheckpoint ws (s.newRow e)) :
    s'.log.filter (IsCheckpoint ws) = s.log.filter (IsCheckpoint ws) ∧
    ∀ r, IsCheckpoint ws r → (r ∈ s'.db.snapshots ↔ r ∈ s.db.snapshots) := by
  refine ⟨?_, fun r hc => ⟨fun hr => ?_, fun hr => ?_⟩⟩
  · rw [(step_eq h).1, List.filter_append, List.filter_singleton, decide_eq_false hquiet]
    exact List.append_nil _
  · rcases List.mem_append.mp ((sublist_of_step h).subset hr) with hr | hr
    · exact hr
    · rw [List.mem_singleton.mp hr] at hc
      exact absurd hc hquiet
  · by_cases hinto : e.workspace = ws
    · have hkind : e.snapshot.kind ≠ .checkpoint := fun hk => hquiet ⟨hinto, hk⟩
      rw [(step_eq h).2, if_neg hkind]
      exact List.mem_append_left _ hr
    · exact mem_of_step_other h hr fun heq => hinto (heq.symm.trans hc.1)

/-- A checkpoint of the workspace is its last one, and comes after the times so far. -/
theorem step_checkpoint (h : s.step e = some s') (hc : IsCheckpoint ws (s.newRow e)) :
    s'.lastCheckpoint ws = some (s.newRow e) ∧
      s'.times ws = s.times ws ++ [e.snapshot.createdAt] := by
  unfold lastCheckpoint times
  rw [(step_eq h).1, List.filter_append, List.filter_singleton, decide_eq_true hc]
  simp [newRow_createdAt]

namespace RetentionInv

variable (hi : RetentionInv ws s)
include hi

/-- The new id is above the others of the workspace. -/
theorem ascending_newRow :
    ((s.log ++ [s.newRow e]).filter (·.workspace = ws)).Pairwise (·.id < ·.id) := by
  rw [List.filter_append]
  refine List.pairwise_append.mpr ⟨hi.ascending, (List.pairwise_singleton _ _).filter _, ?_⟩
  intro r hr r' hr'
  obtain ⟨hr, hws⟩ := List.mem_filter.mp hr
  obtain ⟨hr', hws'⟩ := List.mem_filter.mp hr'
  cases List.mem_singleton.mp hr'
  obtain ⟨r', hr', hws'', hle⟩ := hi.newest r hr (of_decide_eq_true hws)
  have hsame : e.workspace = ws := of_decide_eq_true hws'
  have hlt := SnapshotTables.lt_nextId (SnapshotTables.mem_rows.mpr ⟨hr', hws''⟩)
  show r.id < s.db.nextId e.workspace
  rw [hsame]
  omega

/-- Ids tell the rows of the workspace apart. -/
theorem nodup_insertRow :
    (((s.db.insertRow e.workspace e.snapshot).rows ws).map (·.id)).Nodup := by
  have hsub : ((s.db.insertRow e.workspace e.snapshot).rows ws).Sublist
      ((s.log ++ [s.newRow e]).filter (·.workspace = ws)) :=
    (hi.logged.append (List.Sublist.refl [s.newRow e])).filter _
  exact List.pairwise_map.mpr ((hi.ascending_newRow.sublist hsub).imp Int.ne_of_lt)

/-- An insert into the workspace keeps the new row and whatever is no checkpoint. -/
theorem mem_step (h : s.step e = some s') (hws : e.workspace = ws) :
    s.newRow e ∈ s'.db.snapshots ∧
      ∀ r ∈ s.db.snapshots, ¬ IsCheckpoint ws r → r ∈ s'.db.snapshots := by
  have hnew : s.newRow e ∈ (s.db.insertRow e.workspace e.snapshot).snapshots :=
    List.mem_append_right _ (List.mem_singleton.mpr rfl)
  rw [(step_eq h).2]
  have hids := hi.nodup_insertRow (e := e)
  cases hws
  split
  · rename_i hkind
    refine ⟨SnapshotTables.mem_pruned_of_lastHour hids hnew ⟨rfl, hkind⟩ ?_, fun r hr hc =>
      SnapshotTables.mem_pruned_of_not_checkpoint hids (List.mem_append_left _ hr) hc⟩
    rw [newRow_createdAt]
    unfold hourSecs
    omega
  · exact ⟨hnew, fun r hr _ => List.mem_append_left _ hr⟩

/-- The parts of the invariant that do not look at times. -/
theorem step_rows (h : s.step e = some s') :
    s'.db.snapshots.Sublist s'.log ∧ (s'.log.filter (·.workspace = ws)).Pairwise (·.id < ·.id) ∧
    (∀ r ∈ s'.log, r.workspace = ws → ∃ r' ∈ s'.db.snapshots, r'.workspace = ws ∧ r.id ≤ r'.id) ∧
    ∀ r ∈ s'.log, r.workspace = ws → r.kind = .named → r ∈ s'.db.snapshots := by
  have hlog := (step_eq h).1
  refine ⟨?_, hlog ▸ hi.ascending_newRow, fun r hr hws => ?_, fun r hr hws hkind => ?_⟩
  · rw [hlog]
    exact (sublist_of_step h).trans (hi.logged.append (List.Sublist.refl _))
  · by_cases hinto : e.workspace = ws
    · refine ⟨s.newRow e, (hi.mem_step h hinto).1, hinto, ?_⟩
      rw [hlog] at hr
      rcases List.mem_append.mp hr with hr | hr
      · obtain ⟨r', hr', hws', hle⟩ := hi.newest r hr hws
        have hlt := SnapshotTables.lt_nextId (SnapshotTables.mem_rows.mpr ⟨hr', hws'⟩)
        show r.id ≤ s.db.nextId e.workspace
        rw [hinto]
        omega
      · rw [List.mem_singleton.mp hr]
    · rw [hlog] at hr
      rcases List.mem_append.mp hr with hr | hr
      · obtain ⟨r', hr', hws', hle⟩ := hi.newest r hr hws
        exact ⟨r', mem_of_step_other h hr' fun heq => hinto (heq.symm.trans hws'), hws', hle⟩
      · rw [List.mem_singleton.mp hr] at hws
        exact absurd hws hinto
  · have hno : ¬ IsCheckpoint ws r := fun hc => by
      rw [hc.2] at hkind
      cases hkind
    rw [hlog] at hr
    by_cases hinto : e.workspace = ws
    · rcases List.mem_append.mp hr with hr | hr
      · exact (hi.mem_step h hinto).2 r (hi.named r hr hws hkind) hno
      · rw [List.mem_singleton.mp hr]
        exact (hi.mem_step h hinto).1
    · rcases List.mem_append.mp hr with hr | hr
      · exact mem_of_step_other h (hi.named r hr hws hkind) fun heq => hinto (heq.symm.trans hws)
      · rw [List.mem_singleton.mp hr] at hws
        exact absurd hws hinto

/-- **Every insert in order keeps the invariant.** -/
theorem step (horder : InOrder ws s e) (h : s.step e = some s') : RetentionInv ws s' := by
  obtain ⟨hlogged, hascending, hnewest, hnamed⟩ := hi.step_rows h
  refine ⟨hlogged, hascending, hnewest, hnamed, fun last hlast => ?_⟩
  by_cases hc : IsCheckpoint ws (s.newRow e)
  · obtain ⟨hlast', htimes⟩ := step_checkpoint h hc
    cases hlast.symm.trans hlast'
    have hinto : e.workspace = ws := hc.1
    have hkind : e.snapshot.kind = .checkpoint := hc.2
    have hids := hi.nodup_insertRow (e := e)
    have hdb := (step_eq h).2
    rw [if_pos hkind] at hdb
    cases hinto
    refine ⟨⟨fun r hr hrc hage => ?_, fun r hr hrc => ?_, (hi.mem_step h rfl).1, hnamed⟩, ?_⟩
    · rw [(step_eq h).1] at hr
      rcases List.mem_append.mp hr with hr | hr
      · obtain ⟨before, hbefore⟩ := exists_lastCheckpoint hr hrc
        obtain ⟨hin, hbc⟩ := mem_of_lastCheckpoint hbefore
        have hle := horder rfl hkind _ (mem_times.mpr ⟨before, hin, hbc, rfl⟩)
        rw [newRow_createdAt] at hage
        have hstored := (hi.recent before hbefore).1.lastHour r hr hrc (by omega)
        rw [hdb]
        exact SnapshotTables.mem_pruned_of_lastHour hids (List.mem_append_left _ hstored) hrc hage
      · rw [List.mem_singleton.mp hr]
        exact (hi.mem_step h rfl).1
    · rw [hdb] at hr
      exact SnapshotTables.age_of_mem_pruned hids hr hrc
    · intro m hm
      rw [htimes] at hm
      rcases List.mem_append.mp hm with hm | hm
      · exact horder rfl hkind m hm
      · exact (List.mem_singleton.mp hm).le
  · obtain ⟨hlog, hdb⟩ := step_quiet h hc
    unfold lastCheckpoint at hlast
    rw [hlog] at hlast
    obtain ⟨hrecent, hle⟩ := hi.recent last hlast
    refine ⟨⟨fun r hr hrc hage => ?_, fun r hr hrc => ?_, ?_, hnamed⟩, ?_⟩
    · have hmem : r ∈ s'.log.filter (IsCheckpoint ws) :=
        List.mem_filter.mpr ⟨hr, decide_eq_true hrc⟩
      rw [hlog] at hmem
      exact (hdb r hrc).mpr (hrecent.lastHour r (List.mem_filter.mp hmem).1 hrc hage)
    · exact hrecent.week r ((hdb r hrc).mp hr) hrc
    · exact (hdb last (mem_of_lastCheckpoint hlast).2).mpr hrecent.inserted
    · unfold times
      rw [hlog]
      exact hle

end RetentionInv

/-- The tables of a relay without snapshots. -/
theorem retentionInv_boot (ws : Text) (refs : List (Text × Text)) :
    RetentionInv ws (boot refs) :=
  ⟨List.Sublist.refl _, .nil, nofun, nofun, nofun⟩

end

end SnapshotSystem

/-! ## Windows -/

/-- Two times that inserts have found in one bucket, or in a row of buckets. -/
def Linked (times : List Int) : Int → Int → Prop :=
  Relation.ReflTransGen fun a b => a ∈ times ∧ b ∈ times ∧ a ≤ b ∧ ∃ m ∈ times, SameBucket m a b

section
variable {ts : List Int} {a b c now : Int}

theorem Linked.le (h : Linked ts a b) : a ≤ b := by
  induction h with
  | refl => exact Int.le_refl _
  | tail _ hstep ih => exact ih.trans hstep.2.2.1

theorem Linked.append (h : Linked ts a b) (t : Int) : Linked (ts ++ [t]) a b := by
  induction h with
  | refl => exact .refl
  | tail _ hstep ih =>
    obtain ⟨ha, hb, hle, m, hm, hbucket⟩ := hstep
    exact ih.tail ⟨List.mem_append_left _ ha, List.mem_append_left _ hb, hle, m,
      List.mem_append_left _ hm, hbucket⟩

theorem SameWindows.refl (now a : Int) : SameWindows now a a := ⟨fun _ => rfl, fun _ => rfl⟩

theorem SameWindows.trans (h : SameWindows now a b) (h' : SameWindows now b c) (hle : a ≤ b) :
    SameWindows now a c := by
  refine ⟨fun hage => ?_, fun hage => ?_⟩
  · exact (h.1 hage).trans (h'.1 (by omega))
  · exact (h.2 hage).trans (h'.2 (by omega))

/-- The bucket of what is neither of the last hour nor past seven days. -/
theorem tierOf_bucket (hhour : tierOf now a ≠ .lastHour) (hkeep : tierOf now a ≠ .pastKeep) :
    tierOf now a = if now - a < daySecs then .bucket 1 ((now - a) / hourSecs)
      else .bucket 2 ((now - a) / daySecs) := by
  rw [ne_eq, tierOf_eq_lastHour_iff] at hhour
  rw [ne_eq, tierOf_eq_pastKeep_iff] at hkeep
  unfold tierOf
  dsimp only
  rw [if_neg hhour, if_neg (by omega)]

/-- What is in one bucket is an hour old. -/
theorem SameBucket.age (h : SameBucket now a b) : hourSecs ≤ now - a ∧ hourSecs ≤ now - b := by
  obtain ⟨hsame, hhour, -⟩ := h
  have hb := hsame ▸ hhour
  rw [ne_eq, tierOf_eq_lastHour_iff] at hhour hb
  omega

/-- One bucket is in one window. -/
theorem SameBucket.sameWindows (h : SameBucket now a b) : SameWindows now a b := by
  have hage := h.age
  obtain ⟨hsame, hhour, hkeep⟩ := h
  have ha := tierOf_bucket hhour hkeep
  have hb := tierOf_bucket (hsame ▸ hhour) (hsame ▸ hkeep)
  rw [ha, hb] at hsame
  unfold SameWindows
  unfold daySecs hourSecs at *
  split at hsame
  · split at hsame
    · injection hsame with _ hk
      exact ⟨fun _ => hk, fun _ => by omega⟩
    · cases hsame
  · rename_i hday
    split at hsame
    · cases hsame
    · injection hsame with _ hk
      exact ⟨fun hage => absurd hage hday, fun _ => hk⟩

/-- **Links stay in one window** when an insert parts none. -/
theorem Linked.sameWindows (hparts : PartsNone ts now) (hle : ∀ m ∈ ts, m ≤ now)
    (h : Linked (ts ++ [now]) a b) : SameWindows now a b := by
  induction h with
  | refl => exact .refl _ _
  | @tail b c hab hstep ih =>
    refine ih.trans ?_ (Linked.le hab)
    obtain ⟨hb, hc, hbc, m, hm, hbucket⟩ := hstep
    have hage := hbucket.age
    have hm_le : m ≤ now := by
      rcases List.mem_append.mp hm with hm | hm
      · exact hle m hm
      · exact (List.mem_singleton.mp hm).le
    have hearlier : ∀ x ∈ ts ++ [now], hourSecs ≤ m - x → x ∈ ts := by
      intro x hx hxage
      rcases List.mem_append.mp hx with hx | hx
      · exact hx
      · rw [List.mem_singleton.mp hx] at hxage
        unfold hourSecs at hxage
        omega
    rcases List.mem_append.mp hm with hm | hm
    · exact hparts m hm b (hearlier b hb hage.1) c (hearlier c hc hage.2) hbc hbucket
    · rw [List.mem_singleton.mp hm] at hbucket
      exact hbucket.sameWindows

end

namespace SnapshotSystem

section
variable {ws : Text} {s s' : SnapshotSystem} {e : SnapshotInsert} {last : SnapshotRecord}

/-- What a run besides keeps whose inserts part no two checkpoints: each checkpoint of the last seven
days is linked to one that is stored, and links are in one window. -/
structure WindowInv (ws : Text) (s : SnapshotSystem) : Prop where
  base : RetentionInv ws s
  covered : ∀ last, s.lastCheckpoint ws = some last → ∀ r ∈ s.log, IsCheckpoint ws r →
    last.createdAt - r.createdAt < checkpointKeepSecs →
    ∃ r' ∈ s.db.snapshots, IsCheckpoint ws r' ∧ Linked (s.times ws) r.createdAt r'.createdAt
  together : ∀ last, s.lastCheckpoint ws = some last → ∀ a b, Linked (s.times ws) a b →
    SameWindows last.createdAt a b

/-- **Every insert that parts no two checkpoints keeps it.** -/
theorem WindowInv.step (hi : WindowInv ws s) (hcond : KeepsTogether ws s e)
    (h : s.step e = some s') : WindowInv ws s' := by
  have hbase := hi.base.step hcond.1 h
  by_cases hc : IsCheckpoint ws (s.newRow e)
  · obtain ⟨hlast, htimes⟩ := step_checkpoint h hc
    have hinto : e.workspace = ws := hc.1
    have hkind : e.snapshot.kind = .checkpoint := hc.2
    have horder := hcond.1 hinto hkind
    refine ⟨hbase, fun last hlast' r hr hrc hage => ?_, fun last hlast' a b hab => ?_⟩
    · cases hlast.symm.trans hlast'
      rw [newRow_createdAt] at hage
      rw [(step_eq h).1] at hr
      rcases List.mem_append.mp hr with hr | hr
      · obtain ⟨before, hbefore⟩ := exists_lastCheckpoint hr hrc
        obtain ⟨hin, hbc⟩ := mem_of_lastCheckpoint hbefore
        have hle := horder _ (mem_times.mpr ⟨before, hin, hbc, rfl⟩)
        obtain ⟨r₁, hr₁, hc₁, hlink⟩ := hi.covered before hbefore r hr hrc (by omega)
        have hr₁_le := hlink.le
        -- itself or a newer one of its bucket is stored
        have hage₁ : e.snapshot.createdAt - r₁.createdAt < checkpointKeepSecs := by omega
        obtain ⟨r₂, hr₂, hc₂, hwhich⟩ := SnapshotTables.exists_mem_pruned
          (hi.base.nodup_insertRow (e := e)) (List.mem_append_left _ hr₁) hc₁ hage₁
        have hdb := (step_eq h).2
        rw [if_pos hkind, hinto] at hdb
        rw [hinto] at hr₂
        refine ⟨r₂, hdb ▸ hr₂, hc₂, ?_⟩
        have hlink := hlink.append e.snapshot.createdAt
        rw [htimes]
        rcases hwhich with rfl | ⟨hle₂, hbucket⟩
        · exact hlink
        · have hmem : ∀ x ∈ s'.db.snapshots, IsCheckpoint ws x →
              x.createdAt ∈ s.times ws ++ [e.snapshot.createdAt] := fun x hx hxc =>
            htimes ▸ mem_times.mpr ⟨x, hbase.logged.subset hx, hxc, rfl⟩
          exact hlink.tail ⟨List.mem_append_left _
            (mem_times.mpr ⟨r₁, hi.base.logged.subset hr₁, hc₁, rfl⟩), hmem r₂ (hdb ▸ hr₂) hc₂, hle₂,
              _, List.mem_append_right _ (List.mem_singleton.mpr rfl), hbucket⟩
      · rw [List.mem_singleton.mp hr]
        exact ⟨_, (hi.base.mem_step h hinto).1, hc, .refl⟩
    · cases hlast.symm.trans hlast'
      rw [htimes] at hab
      exact hab.sameWindows (hcond.2 hinto hkind) horder
  · obtain ⟨hlog, hdb⟩ := step_quiet h hc
    have htimes : s'.times ws = s.times ws := by
      unfold times
      rw [hlog]
    refine ⟨hbase, fun last hlast r hr hrc hage => ?_, fun last hlast a b hab => ?_⟩
    · unfold lastCheckpoint at hlast
      rw [hlog] at hlast
      have hmem : r ∈ s'.log.filter (IsCheckpoint ws) :=
        List.mem_filter.mpr ⟨hr, decide_eq_true hrc⟩
      rw [hlog] at hmem
      obtain ⟨r', hr', hc', hlink⟩ :=
        hi.covered last hlast r (List.mem_filter.mp hmem).1 hrc hage
      exact ⟨r', (hdb r' hc').mpr hr', hc', htimes ▸ hlink⟩
    · unfold lastCheckpoint at hlast
      rw [hlog] at hlast
      exact hi.together last hlast a b (htimes ▸ hab)

theorem windowInv_boot (ws : Text) (refs : List (Text × Text)) : WindowInv ws (boot refs) :=
  ⟨retentionInv_boot ws refs, nofun, nofun⟩

/-- **No window is emptied.** -/
theorem WindowInv.keepsWindows (hi : WindowInv ws s) (hlast : s.lastCheckpoint ws = some last) :
    s.KeepsWindows ws last := by
  refine ⟨fun k hk hlt => ?_, fun k hk hlt => ?_⟩
  · rintro ⟨r, hr, hc, rfl⟩
    unfold hourSecs at hk hlt
    have hage : last.createdAt - r.createdAt < daySecs := by
      unfold daySecs hourSecs
      omega
    obtain ⟨r', hr', hc', hlink⟩ := hi.covered last hlast r hr hc (by
      unfold checkpointKeepSecs daySecs hourSecs
      omega)
    exact ⟨r', hr', hc', ((hi.together last hlast _ _ hlink).1 hage).symm⟩
  · rintro ⟨r, hr, hc, rfl⟩
    unfold daySecs hourSecs at hk hlt
    have hage : last.createdAt - r.createdAt < checkpointKeepSecs := by
      unfold checkpointKeepSecs daySecs hourSecs
      omega
    obtain ⟨r', hr', hc', hlink⟩ := hi.covered last hlast r hr hc hage
    exact ⟨r', hr', hc', ((hi.together last hlast _ _ hlink).2 hage).symm⟩

end

end SnapshotSystem

open SnapshotSystem in
/-- **Checkpoint retention over whole runs.** After every insert of a run whose checkpoints of a workspace
come in the order of their times, those of the last hour, the last one and the named ones are stored, and
none past seven days. If besides no insert parts two that an earlier one found in one bucket, each of the
last 24 hours and 7 days in which a checkpoint was inserted has one. -/
theorem checkpoint_retention (ws : Text) (refs : List (Text × Text)) (es : List SnapshotInsert)
    (s : SnapshotSystem) (last : SnapshotRecord) (hlast : s.lastCheckpoint ws = some last) :
    (Lib.Run step (InOrder ws) (boot refs) es s → s.KeepsRecent ws last) ∧
      (Lib.Run step (KeepsTogether ws) (boot refs) es s →
        s.KeepsRecent ws last ∧ s.KeepsWindows ws last) := by
  constructor
  · intro h
    have hi := h.invariant (fun s e s' hi hc hs => RetentionInv.step hi hc hs)
      (retentionInv_boot ws refs)
    exact (hi.recent last hlast).1
  · intro h
    have hi := h.invariant (fun s e s' hi hc hs => WindowInv.step hi hc hs) (windowInv_boot ws refs)
    exact ⟨(hi.base.recent last hlast).1, hi.keepsWindows hlast⟩

/-- A checkpoint at a time. -/
def checkpointAt (t : Int) : SnapshotInsert where
  workspace := "w".toList
  snapshot := ⟨none, .checkpoint, "d".toList, t, [], []⟩

/-- Its row. -/
def checkpointRow (id t : Int) : SnapshotRecord := (checkpointAt t).snapshot.row "w".toList id

open SnapshotSystem in
/-- Two checkpoints that share an hour, and are in one day a day later. -/
theorem checkpoint_retention_day :
    let s : SnapshotSystem :=
      { db := ⟨[checkpointRow 3 6600, checkpointRow 4 100000], []⟩
        log := [checkpointRow 1 0, checkpointRow 2 600, checkpointRow 3 6600,
          checkpointRow 4 100000] }
    Lib.Run step (KeepsTogether "w".toList) (boot [])
        ([0, 600, 6600, 100000].map checkpointAt) s ∧
      s.lastCheckpoint "w".toList = some (checkpointRow 4 100000) ∧
      s.KeepsWindows "w".toList (checkpointRow 4 100000) := by
  intro s
  have hok : ∀ s e, decide (KeepsTogether "w".toList s e) = true → KeepsTogether "w".toList s e :=
    fun _ _ => of_decide_eq_true
  have hrun : Lib.Run step (KeepsTogether "w".toList) (boot [])
      ([0, 600, 6600, 100000].map checkpointAt) s := Lib.Run.of_replay_if hok (by decide +kernel)
  have hlast : s.lastCheckpoint "w".toList = some (checkpointRow 4 100000) := by decide +kernel
  exact ⟨hrun, hlast, ((checkpoint_retention "w".toList [] _ s _ hlast).2 hrun).2⟩

open SnapshotSystem in
/-- **A window is emptied when the buckets slide.** At 6600 s the checkpoints of 0 s and 2400 s share an
hour, so the older one is deleted. At 8400 s it would be the only one that is two hours old. -/
theorem sliding_window_empties :
    let s : SnapshotSystem :=
      { db := ⟨[checkpointRow 2 2400, checkpointRow 3 6600, checkpointRow 4 8400], []⟩
        log := [checkpointRow 1 0, checkpointRow 2 2400, checkpointRow 3 6600,
          checkpointRow 4 8400] }
    Lib.Run step (InOrder "w".toList) (boot [])
        ([0, 2400, 6600, 8400].map checkpointAt) s ∧
      s.lastCheckpoint "w".toList = some (checkpointRow 4 8400) ∧
      ¬ s.KeepsWindows "w".toList (checkpointRow 4 8400) := by
  intro s
  have hok : ∀ s e, decide (InOrder "w".toList s e) = true → InOrder "w".toList s e :=
    fun _ _ => of_decide_eq_true
  refine ⟨Lib.Run.of_replay_if hok (by decide +kernel), by decide +kernel, fun h => ?_⟩
  have hempty : ∀ r ∈ s.db.snapshots, (8400 - r.createdAt) / hourSecs ≠ 2 := by decide +kernel
  obtain ⟨r, hr, -, hk⟩ := h.hours 2 (by decide) (by decide)
    ⟨checkpointRow 1 0, List.mem_cons_self, by decide +kernel, by decide +kernel⟩
  exact hempty r hr hk

end Pear
