import Pear.Merge.Outcome

/-!
# Putting a merge on disk, file by file

The converge step (`converge.rs`) seen at the level of file maps: a tree is what a scan of it would
record. `materialize` first copies the local losers aside, then `apply_commit` deletes and writes
what differs, worktree before `.git` and deletes before writes (`applyOps`). A write is a rename of
a staged file followed by setting its modification time, and only the permission bits of a mode
reach the disk (`settled`). `applyCut` is the tree after any number of these steps;
`applyCut_cases` says what it can hold at a path.
-/

namespace Pear

/-- A manifest that carries a file set and nothing else: the parts of a merge that concern files
depend on nothing else. -/
def Manifest.ofFiles (files : FileMap) : Manifest := { Manifest.new [] with files }

/-- The merge of three file sets. -/
def mergeFiles (base l r : FileMap) (device stamp : Text) : MergeOutcome :=
  merge (.ofFiles base) (.ofFiles l) (.ofFiles r) device stamp

/-! ## The steps of an apply -/

/-- `mtime_nanos.clamp(0, 999_999_999)`. -/
def clampNanos (n : Int) : Int := max 0 (min n 999999999)

/-- What the disk holds of an entry the apply wrote: the permission bits of its mode, and its
modification time with the nanoseconds clamped. -/
def settled (e : FileEntry) : FileEntry :=
  { e with mode := e.mode &&& 0o777, mtimeNanos := clampNanos e.mtimeNanos }

/-- A step of the apply that changes the tree. -/
inductive TreeOp where
  | delete (p : Text)
  /-- The staged file is renamed into place; its modification time is that of the staging. -/
  | rename (p : Text) (e : FileEntry)
  | setMtime (p : Text) (e : FileEntry)
deriving DecidableEq

/-- The path a step acts on. -/
def TreeOp.path : TreeOp → Text
  | .delete p | .rename p _ | .setMtime p _ => p

/-- What a step does at its path; `now` is the time of the staging. -/
def TreeOp.entry (now : Int × Int) : TreeOp → Option FileEntry → Option FileEntry
  | .delete _, _ => none
  | .rename _ e, _ =>
    some { e with mode := e.mode &&& 0o777, mtimeSecs := now.1, mtimeNanos := now.2 }
  | .setMtime _ e, old =>
    old.map fun o => { o with mtimeSecs := e.mtimeSecs, mtimeNanos := clampNanos e.mtimeNanos }

/-- A tree after a step. -/
def TreeOp.run (now : Int × Int) (t : FileMap) (op : TreeOp) : FileMap :=
  match op.entry now t[op.path]? with
  | some e => t.insert op.path e
  | none => t.erase op.path

/-- The steps of one write. -/
def writeOps (new : FileMap) (p : Text) : List TreeOp :=
  match new[p]? with
  | some e => [.rename p e, .setMtime p e]
  | none => []

/-- The steps from one file map to another, in the apply's four phases: deletes and writes of the
worktree, then deletes and writes below `.git` (`apply_commit`, `partition_git`). -/
def applyOps (old new : FileMap) : List TreeOp :=
  let d := diff old new
  let writes := d.added ++ d.changed
  (d.deleted.filter (!isGitPath ·)).map .delete ++ (writes.filter (!isGitPath ·)).flatMap (writeOps new)
    ++ (d.deleted.filter isGitPath).map .delete ++ (writes.filter isGitPath).flatMap (writeOps new)

/-- The tree after the first `k` steps of an apply. -/
def applyCut (now : Int × Int) (old new : FileMap) (k : Nat) (t : FileMap) : FileMap :=
  ((applyOps old new).take k).foldl (TreeOp.run now) t

/-- A step changes its own path only. -/
theorem TreeOp.run_get (now : Int × Int) (t : FileMap) (op : TreeOp) (q : Text) :
    (op.run now t)[q]? = if op.path = q then op.entry now t[q]? else t[q]? := by
  unfold TreeOp.run
  cases h : op.entry now t[op.path]? with
  | none =>
    rw [Lib.getElem?_erase_eq]
    split
    · rename_i hq
      rw [← hq, h]
    · rfl
  | some e =>
    rw [Lib.getElem?_insert_eq]
    split
    · rename_i hq
      rw [← hq, h]
    · rfl

/-- At one path, a list of steps acts through the steps on that path. -/
theorem foldl_run_get (now : Int × Int) (q : Text) : ∀ (ops : List TreeOp) (t : FileMap),
    (ops.foldl (TreeOp.run now) t)[q]? =
      (ops.filter (·.path = q)).foldl (fun e op => op.entry now e) t[q]?
  | [], t => rfl
  | op :: ops, t => by
    rw [List.foldl_cons, foldl_run_get now q ops, TreeOp.run_get]
    by_cases h : op.path = q
    · simp [h]
    · simp [h]

/-- The steps on one path among the deletes of distinct paths. -/
theorem filter_map_delete (q : Text) : ∀ {xs : List Text}, xs.Nodup →
    (xs.map TreeOp.delete).filter (·.path = q) = if q ∈ xs then [.delete q] else []
  | [], _ => rfl
  | x :: xs, h => by
    have ih := filter_map_delete q (List.nodup_cons.mp h).2
    have hx := (List.nodup_cons.mp h).1
    rw [List.map_cons, List.filter_cons, ih]
    by_cases hq : x = q
    · subst hq
      simp [TreeOp.path, hx]
    · simp [TreeOp.path, hq, Ne.symm hq]

/-- The steps of a write are on its path. -/
theorem filter_writeOps (new : FileMap) (p q : Text) :
    (writeOps new p).filter (·.path = q) = if p = q then writeOps new q else [] := by
  unfold writeOps
  by_cases hq : p = q
  · subst hq
    cases new[p]? <;> simp [TreeOp.path]
  · cases new[p]? <;> simp [TreeOp.path, hq]

/-- The steps on one path among the writes of distinct paths. -/
theorem filter_flatMap_writeOps (new : FileMap) (q : Text) : ∀ {xs : List Text}, xs.Nodup →
    (xs.flatMap (writeOps new)).filter (·.path = q) = if q ∈ xs then writeOps new q else []
  | [], _ => rfl
  | x :: xs, h => by
    have ih := filter_flatMap_writeOps new q (List.nodup_cons.mp h).2
    have hx := (List.nodup_cons.mp h).1
    rw [List.flatMap_cons, List.filter_append, ih, filter_writeOps]
    by_cases hq : x = q
    · subst hq
      simp [hx]
    · simp [hq, Ne.symm hq]

/-- No path is both added and changed. -/
theorem nodup_writes (old new : FileMap) : ((diff old new).added ++ (diff old new).changed).Nodup := by
  rw [List.nodup_append]
  refine ⟨(Lib.nodup_keys new).filter _, (Lib.nodup_keys new).filter _, ?_⟩
  rintro a ha b hb rfl
  exact (mem_changed.mp hb).1 (mem_added.mp ha).1

/-- The writes are the paths whose new entry the old map does not have. -/
theorem mem_writes {old new : FileMap} {p : Text} :
    p ∈ (diff old new).added ++ (diff old new).changed ↔ new[p]? ≠ none ∧ old[p]? ≠ new[p]? := by
  rw [List.mem_append, mem_added, mem_changed]
  by_cases h : old[p]? = none
  · rw [h]
    constructor
    · rintro (h' | h')
      · exact ⟨h'.2, Ne.symm h'.2⟩
      · exact absurd rfl h'.1
    · exact fun h' => .inl ⟨rfl, h'.1⟩
  · constructor
    · rintro (h' | h')
      · exact absurd h'.1 h
      · exact h'.2
    · exact fun h' => .inr ⟨h, h'⟩

/-- **The steps of an apply on one path**: a delete, a write, or nothing. -/
theorem applyOps_at (old new : FileMap) (q : Text) : (applyOps old new).filter (·.path = q) =
    if new[q]? = old[q]? then [] else if new[q]? = none then [.delete q] else writeOps new q := by
  have hdel (f : Text → Bool) : (((diff old new).deleted.filter f).map TreeOp.delete).filter
      (·.path = q) = if (old[q]? ≠ none ∧ new[q]? = none) ∧ f q = true then [.delete q] else [] := by
    have hnodup : (diff old new).deleted.Nodup := (Lib.nodup_keys old).filter _
    rw [filter_map_delete q (hnodup.filter f)]
    simp only [List.mem_filter, mem_deleted]
  have hwr (f : Text → Bool) :
      ((((diff old new).added ++ (diff old new).changed).filter f).flatMap (writeOps new)).filter
        (·.path = q) =
      if (new[q]? ≠ none ∧ old[q]? ≠ new[q]?) ∧ f q = true then writeOps new q else [] := by
    rw [filter_flatMap_writeOps new q ((nodup_writes old new).filter f)]
    simp only [List.mem_filter, mem_writes]
  simp only [applyOps]
  rw [List.filter_append, List.filter_append, List.filter_append, hdel, hwr, hdel, hwr]
  generalize old[q]? = o, new[q]? = n
  by_cases ho : n = o
  · cases isGitPath q <;> simp [ho]
  · by_cases hn : n = none
    · cases isGitPath q <;> simp [hn ▸ ho, hn, Ne.symm (hn ▸ ho)]
    · cases isGitPath q <;> simp [hn, ho, Ne.symm ho]

/-- The entry a rename leaves, before its modification time is restored. -/
def renamed (now : Int × Int) (e : FileEntry) : FileEntry :=
  { e with mode := e.mode &&& 0o777, mtimeSecs := now.1, mtimeNanos := now.2 }

/-- **What a cut apply leaves at a path**: what was there, nothing where the path is deleted, or the
new entry, before or after its modification time is set. -/
theorem applyCut_cases (now : Int × Int) (old new : FileMap) (k : Nat) (t : FileMap) (q : Text) :
    (applyCut now old new k t)[q]? = t[q]? ∨
      new[q]? ≠ old[q]? ∧ (new[q]? = none ∧ (applyCut now old new k t)[q]? = none ∨
        ∃ e, new[q]? = some e ∧ ((applyCut now old new k t)[q]? = some (renamed now e) ∨
          (applyCut now old new k t)[q]? = some (settled e))) := by
  have hpre : ((applyOps old new).take k).filter (·.path = q) <+: (applyOps old new).filter (·.path = q) :=
    (List.take_prefix k _).filter _
  rw [applyCut, foldl_run_get]
  generalize ((applyOps old new).take k).filter (·.path = q) = ops at hpre ⊢
  rw [applyOps_at] at hpre
  by_cases ho : new[q]? = old[q]?
  · rw [if_pos ho, List.prefix_nil] at hpre
    exact .inl (by rw [hpre]; rfl)
  rw [if_neg ho] at hpre
  cases hn : new[q]? with
  | none =>
    rw [if_pos hn, List.prefix_cons_iff] at hpre
    rcases hpre with rfl | ⟨ops', rfl, hnil⟩
    · exact .inl rfl
    · rw [List.prefix_nil] at hnil
      subst hnil
      exact .inr ⟨hn ▸ ho, .inl ⟨rfl, rfl⟩⟩
  | some e =>
    simp only [hn, writeOps, reduceCtorEq, if_false, List.prefix_cons_iff, List.prefix_nil] at hpre
    rcases hpre with rfl | ⟨ops', rfl, rfl | ⟨ops'', rfl, rfl⟩⟩
    · exact .inl rfl
    · exact .inr ⟨hn ▸ ho, .inr ⟨e, rfl, .inl rfl⟩⟩
    · exact .inr ⟨hn ▸ ho, .inr ⟨e, rfl, .inr rfl⟩⟩

/-- The tree after a whole apply. -/
def applyAll (now : Int × Int) (old new t : FileMap) : FileMap :=
  (applyOps old new).foldl (TreeOp.run now) t

/-- **What a whole apply leaves at a path**: the new entry as the disk holds it where the maps
differ, and what was there elsewhere. -/
theorem applyAll_get (now : Int × Int) (old new t : FileMap) (q : Text) :
    (applyAll now old new t)[q]? =
      if new[q]? = old[q]? then t[q]? else new[q]?.map settled := by
  rw [applyAll, foldl_run_get, applyOps_at]
  by_cases ho : new[q]? = old[q]?
  · simp [ho]
  · cases hn : new[q]? with
    | none => simp [hn ▸ ho, TreeOp.entry]
    | some e =>
      have ho : some e ≠ old[q]? := hn ▸ ho
      simp [ho, writeOps, hn, TreeOp.entry, settled]

/-! ## Materializing a merge -/

/-- The file set on disk once the local losers are copied aside (`on_disk` in `materialize`). -/
def onDisk (l : FileMap) (conflicts : List ConflictCopy) : FileMap :=
  conflicts.foldl (fun m c =>
    if c.side = .localSide && !c.localOnly then m.insert c.copyPath c.entry else m) l

/-- Copy a local loser aside (`copy_local_loser`), which fails when the file is gone. A local-only
copy leaves the tree alone, and a remote loser is written by the apply. -/
def copyLoser (t : FileMap) (c : ConflictCopy) : Option FileMap :=
  match c.side, t[c.path]? with
  | .remoteSide, _ => some t
  | .localSide, none => none
  | .localSide, some e =>
    if c.localOnly then some t
    else some (t.insert c.copyPath
      { e with mtimeSecs := c.entry.mtimeSecs, mtimeNanos := clampNanos c.entry.mtimeNanos })

/-- The tree a materialization leaves, from a tree whose scan was `l` (`materialize`). -/
def place (now : Int × Int) (t l : FileMap) (out : MergeOutcome) : Option FileMap :=
  (out.conflicts.foldlM copyLoser t).map fun t' =>
    applyAll now (onDisk l out.conflicts) out.merged.files t'

/-- What `.pear/manifest.json` records after a materialization: the remote merged against, unless
there was nothing to apply. -/
def recordedAfter (recorded l remote : FileMap) (out : MergeOutcome) : FileMap :=
  if diff (onDisk l out.conflicts) out.merged.files = {} then recorded else remote

/-- Where a converge stops. -/
inductive Cut where
  /-- After some conflict copies. -/
  | copies (j : Nat)
  /-- After all conflict copies and some steps of the apply. -/
  | steps (k : Nat)
  /-- After the apply moved the manifest pointer. -/
  | pointer
deriving DecidableEq

/-- The tree a materialization leaves when it stops at a cut. A copy that fails stops it as well,
and what the copies before it left is not told apart here. -/
def cutPlace (now : Int × Int) (t l : FileMap) (out : MergeOutcome) : Cut → FileMap
  | .copies j => ((out.conflicts.take j).foldlM copyLoser t).getD t
  | .steps k => ((out.conflicts.foldlM copyLoser t).map
      (applyCut now (onDisk l out.conflicts) out.merged.files k)).getD t
  | .pointer => (place now t l out).getD t

/-- What is recorded when a materialization stops at a cut. -/
def cutRecorded (recorded l remote : FileMap) (out : MergeOutcome) : Cut → FileMap
  | .copies _ | .steps _ => recorded
  | .pointer => recordedAfter recorded l remote out

/-- Two maps with nothing to do between them are one map. -/
theorem diff_self (m : FileMap) : diff m m = {} := by
  have hnil : ∀ f : Text → Bool, (∀ p ∈ m.keys, f p = false) → m.keys.filter f = [] :=
    fun f hf => List.filter_eq_nil_iff.mpr fun p hp => by simp [hf p hp]
  simp only [diff, ManifestDiff.mk.injEq]
  refine ⟨hnil _ fun p hp => ?_, hnil _ fun p _ => by simp, hnil _ fun p hp => ?_⟩ <;>
  · have := Lib.mem_keys_iff.mp hp
    simpa using this

/-- Maps whose `diff` reports nothing are one map. -/
theorem eq_of_diff_eq {old new : FileMap} (h : diff old new = {}) : old = new := by
  refine Lib.map_ext fun p => ?_
  have hw : p ∉ (diff old new).added ++ (diff old new).changed := by simp [h]
  have hd : p ∉ (diff old new).deleted := by simp [h]
  rw [mem_writes] at hw
  rw [mem_deleted] at hd
  by_cases hn : new[p]? = none
  · rw [hn]
    by_contra ho
    exact hd ⟨ho, hn⟩
  · by_contra ho
    exact hw ⟨hn, ho⟩

/-- Nothing to apply leaves the tree alone. -/
theorem applyAll_self (now : Int × Int) (m t : FileMap) : applyAll now m m t = t :=
  Lib.map_ext fun q => by rw [applyAll_get, if_pos rfl]

section
variable {base l r : FileMap} {device stamp : Text} {out : MergeOutcome}

/-- A path no local loser is copied to is not changed by the copies. -/
theorem onDisk_get_of_no_copy {q : Text} : ∀ (cs : List ConflictCopy) (m : FileMap),
    (∀ c ∈ cs, c.localOnly = false → c.side = .localSide → c.copyPath ≠ q) →
      (onDisk m cs)[q]? = m[q]?
  | [], _, _ => rfl
  | c :: cs, m, h => by
    refine (onDisk_get_of_no_copy cs _ fun d hd => h d (List.mem_cons_of_mem _ hd)).trans ?_
    dsimp only
    split
    · rename_i hc
      rw [Bool.and_eq_true, Bool.not_eq_true', decide_eq_true_eq] at hc
      rw [Lib.getElem?_insert_eq, if_neg (h c List.mem_cons_self hc.2 hc.1)]
    · rfl

/-- A path some input has is not changed by the copies. -/
theorem onDisk_get_of_input {q : Text} (cs : List ConflictCopy) (m : FileMap)
    (h : ∀ c ∈ cs, c.localOnly = false → c.copyPath ≠ q) : (onDisk m cs)[q]? = m[q]? :=
  onDisk_get_of_no_copy cs m fun c hc hl _ => h c hc hl

/-- A path local losers are copied to has their entry, when it is one. -/
theorem onDisk_get_of_copy {q : Text} {e : FileEntry} : ∀ (cs : List ConflictCopy) (m : FileMap),
    (∀ c ∈ cs, c.localOnly = false → c.copyPath = q → c.side = .localSide ∧ c.entry = e) →
    (m[q]? = some e ∨ ∃ c ∈ cs, c.localOnly = false ∧ c.copyPath = q) →
    (onDisk m cs)[q]? = some e
  | [], _, _, h => by
    rcases h with h | ⟨c, hc, -⟩
    · exact h
    · cases hc
  | c :: cs, m, hall, h => by
    refine onDisk_get_of_copy cs _ (fun d hd => hall d (List.mem_cons_of_mem _ hd)) ?_
    by_cases hc : c.localOnly = false ∧ c.copyPath = q
    · obtain ⟨hs, he⟩ := hall c List.mem_cons_self hc.1 hc.2
      left
      simp [hs, hc.1, hc.2, he]
    · rcases h with h | ⟨d, hd, hdc⟩
      · left
        dsimp only
        split
        · rename_i hcond
          rw [Bool.and_eq_true, Bool.not_eq_true'] at hcond
          rw [Lib.getElem?_insert_eq, if_neg fun hq => hc ⟨hcond.2, hq⟩, h]
        · exact h
      · rcases List.mem_cons.mp hd with rfl | hd
        · exact absurd hdc hc
        · exact .inr ⟨d, hd, hdc⟩

/-- The copy of an ordinary local loser is on disk with the loser's entry. -/
theorem MergeResult.onDisk_get_copy (h : MergeResult base l r device stamp out.merged.files
    out.conflicts) {c : ConflictCopy} (hc : c ∈ out.conflicts) (hl : c.localOnly = false)
    (hs : c.side = .localSide) : (onDisk l out.conflicts)[c.copyPath]? = some c.entry := by
  refine onDisk_get_of_copy _ _ (fun d hd hdl hpath => ?_) (.inr ⟨c, hc, hl, rfl⟩)
  obtain rfl := h.eq_of_copyPath hd hc (hdl.trans hl.symm) hpath
  exact ⟨hs, rfl⟩

/-- A local loser's path differs between the disk and the merge, so there is something to apply. -/
theorem MergeResult.remote_of_onDisk (h : MergeResult base l r device stamp out.merged.files
    out.conflicts) (hd : diff (onDisk l out.conflicts) out.merged.files = {}) :
    ∀ c ∈ out.conflicts, c.side = .remoteSide := by
  intro c hc
  have hof := h.copyOf c hc
  obtain ⟨le, re, hl, hr, -, -, hcont, hcase⟩ := decidePath_loser hof.lost
  rcases hcase with ⟨-, -, he, -⟩ | ⟨hs, -⟩
  · have hdisk := eq_of_diff_eq hd
    have hfree : ∀ d ∈ out.conflicts, d.localOnly = false → d.copyPath ≠ c.path :=
      fun d hd hdl => (h.copyOf d hd).copyPath_ne hdl (.inl hof.inputs.1)
    have hm : out.merged.files[c.path]? = some re := (h.decided c.path hfree).trans he
    have hlocal : out.merged.files[c.path]? = some le := by
      rw [← hdisk, onDisk_get_of_input _ _ hfree, hl]
    rw [hm] at hlocal
    obtain rfl := Option.some.inj hlocal
    simp [sameContent] at hcont
  · exact hs

/-- **With nothing to apply, a materialization leaves the tree alone.** -/
theorem MergeResult.place_of_diff (h : MergeResult base l r device stamp out.merged.files
    out.conflicts) (hd : diff (onDisk l out.conflicts) out.merged.files = {}) (now : Int × Int)
    (t : FileMap) : place now t l out = some t := by
  have hremote := h.remote_of_onDisk hd
  have hcopies : ∀ cs : List ConflictCopy, (∀ c ∈ cs, c.side = .remoteSide) →
      cs.foldlM copyLoser t = some t := by
    intro cs hcs
    induction cs with
    | nil => rfl
    | cons c cs ih =>
      rw [List.foldlM_cons, copyLoser, hcs c List.mem_cons_self]
      exact ih fun d hd => hcs d (List.mem_cons_of_mem _ hd)
  rw [place, hcopies _ hremote, eq_of_diff_eq hd, Option.map_some, applyAll_self]

/-- A file set whose entries the disk can hold as they are: no set-id bits, and nanoseconds in range. -/
def Settled (m : FileMap) : Prop := ∀ (p : Text) (e : FileEntry), m[p]? = some e → settled e = e

/-- A merge of settled sides is settled, and so is what it copies aside. -/
theorem MergeResult.settled (h : MergeResult base l r device stamp out.merged.files out.conflicts)
    (hl : Settled l) (hr : Settled r) :
    Settled out.merged.files ∧ ∀ c ∈ out.conflicts, Pear.settled c.entry = c.entry := by
  have hcopy : ∀ c ∈ out.conflicts, Pear.settled c.entry = c.entry := by
    intro c hc
    obtain ⟨le, re, hle, hre, -, -, -, ⟨-, he, -⟩ | ⟨-, he, -⟩⟩ := decidePath_loser (h.copyOf c hc).lost
    · exact he ▸ hl _ _ hle
    · exact he ▸ hr _ _ hre
  refine ⟨fun p e he => ?_, hcopy⟩
  by_cases hc : ∃ c ∈ out.conflicts, c.localOnly = false ∧ c.copyPath = p
  · obtain ⟨c, hcm, hcl, rfl⟩ := hc
    rw [h.copied c hcm hcl, Option.some.injEq] at he
    exact he ▸ hcopy c hcm
  · rw [h.decided p fun c hcm hcl hcp => hc ⟨c, hcm, hcl, hcp⟩] at he
    rcases decidePath_entry base[p]? l[p]? r[p]? with hside | hside
    · exact hl p e (hside.symm.trans he)
    · exact hr p e (hside.symm.trans he)

end

end Pear
