import Pear.Converge.Device
import Pear.Lib.Runs

/-!
# Retrying a failed converge

A converge can fail after it has made its conflict copies: an apply that is refused or stops on the
way, a head that cannot be published. The next one runs against the same head, under a new time
stamp, from the tree the failed one left. A path that the failed apply did not get to is still
contested then, and its loser is copied again under another name (`retry_copies_again`): the stamp is
fixed once per converge, so only the retries within one converge name their copies alike.

No copy is made twice where every failed run has settled what it copied: it made none, it failed only
after the manifest pointer had moved to the head, or its losers were all local ones and the head's
files had taken their paths (`retries_copy_once`).
-/

namespace Pear

/-- How far a converge that fails gets after its conflict copies: some steps into the apply, or
through it, to fail at the publication. -/
inductive FailPoint where
  | steps (k : Nat)
  | publish
deriving DecidableEq

/-- The cut a failure is. -/
def FailPoint.cut : FailPoint → Cut
  | .steps k => .steps k
  | .publish => .pointer

/-- A run that fails: the stamp of its converge, the time it stages files at, and how far it got. -/
structure FailedRun where
  stamp : Text
  now : Int × Int
  point : FailPoint

/-- A failed run: an invalid merge makes no copies, another one makes all of them and then stops. -/
def Device.fail (device : Text) (s : Device) (f : FailedRun) : Device :=
  match validate (s.outcome device f.stamp).merged with
  | .error _ => s
  | .ok () =>
    { s.interrupt device f.stamp f.now f.point.cut with
      copies := s.copies ++ (s.outcome device f.stamp).conflicts }

/-- The path is contested with this loser. -/
def Device.Loses (s : Device) (p : Text) (side : ConflictSide) (e : FileEntry) : Prop :=
  (decideAt s.recorded s.tree s.remote p).loser = some (side, e)

/-- A failed run settles what it copied: no path is contested, or it fails at the publication and
there was something to apply, so that the manifest pointer has moved, or every loser is local and the
winner was renamed into its place, with a mode the disk can hold. -/
def Device.Settles (device : Text) (s : Device) (f : FailedRun) : Prop :=
  let out := s.outcome device f.stamp
  (∀ p side e, ¬s.Loses p side e) ∨
    (f.point = .publish ∧ diff (onDisk s.tree out.conflicts) out.merged.files ≠ {}) ∨
    ∃ k, f.point = .steps k ∧ ∀ p side e, s.Loses p side e → side = .localSide ∧
      ∃ w, s.remote[p]? = some w ∧ w.mode &&& 0o777 = w.mode ∧
        .rename p w ∈ (applyOps (onDisk s.tree out.conflicts) out.merged.files).take k

/-! ## What the steps of an apply leave -/

section
variable {old new : FileMap} {k : Nat} {q : Text} {e : FileEntry}

/-- A rename that was done leaves the new entry, with its modification time set or not. -/
theorem applyCut_renamed (now : Int × Int) (t : FileMap)
    (h : .rename q e ∈ (applyOps old new).take k) :
    (applyCut now old new k t)[q]? = some (renamed now e) ∨
      (applyCut now old new k t)[q]? = some (settled e) := by
  have hpre : ((applyOps old new).take k).filter (·.path = q) <+:
      (applyOps old new).filter (·.path = q) := (List.take_prefix k _).filter _
  have hmem : .rename q e ∈ ((applyOps old new).take k).filter (·.path = q) :=
    List.mem_filter.mpr ⟨h, by simp [TreeOp.path]⟩
  rw [applyCut, foldl_run_get]
  generalize ((applyOps old new).take k).filter (·.path = q) = ops at hpre hmem ⊢
  rw [applyOps_at] at hpre
  split at hpre
  · rw [List.prefix_nil] at hpre
    rw [hpre] at hmem
    cases hmem
  · split at hpre
    · have := hpre.subset hmem
      simp at this
    · rename_i hn
      obtain ⟨e', he'⟩ := Option.ne_none_iff_exists'.mp hn
      simp only [writeOps, he', List.prefix_cons_iff, List.prefix_nil] at hpre
      rcases hpre with rfl | ⟨ops', rfl, rfl | ⟨ops'', rfl, rfl⟩⟩
      · cases hmem
      · obtain rfl : e = e' := by simpa using hmem
        exact .inl rfl
      · obtain rfl : e = e' := by simpa using hmem
        exact .inr rfl

/-- A whole apply is a cut after its last step. -/
theorem applyAll_eq_cut (now : Int × Int) (old new t : FileMap) :
    applyAll now old new t = applyCut now old new (applyOps old new).length t := by
  rw [applyCut, List.take_length, applyAll]

/-- Copying losers aside leaves the other paths alone. -/
theorem foldlM_copyLoser_get : ∀ {cs : List ConflictCopy} {t t' : FileMap},
    cs.foldlM copyLoser t = some t' → (∀ c ∈ cs, c.localOnly = false → c.copyPath ≠ q) →
    t'[q]? = t[q]?
  | [], t, t', h, _ => by
    cases h
    rfl
  | c :: cs, t, t', h, hne => by
    obtain ⟨t₁, hc, h⟩ := Option.bind_eq_some_iff.mp h
    refine (foldlM_copyLoser_get h fun d hd => hne d (List.mem_cons_of_mem _ hd)).trans ?_
    unfold copyLoser at hc
    split at hc
    · cases hc
      rfl
    · cases hc
    · split at hc
      · cases hc
        rfl
      · rename_i hl
        cases hc
        rw [Lib.getElem?_insert_eq, if_neg (hne c List.mem_cons_self (Bool.not_eq_true _ ▸ hl))]

/-- Losers that are there can be copied. -/
theorem exists_foldlM_copyLoser : ∀ (cs : List ConflictCopy) (t : FileMap),
    (∀ c ∈ cs, c.side = .localSide → t[c.path]? ≠ none) → ∃ t', cs.foldlM copyLoser t = some t'
  | [], t, _ => ⟨t, rfl⟩
  | c :: cs, t, h => by
    have hstep : ∃ t₁, copyLoser t c = some t₁ ∧ ∀ q : Text, t[q]? ≠ none → t₁[q]? ≠ none := by
      unfold copyLoser
      split
      · exact ⟨t, rfl, fun _ h => h⟩
      · rename_i hs hnone
        exact absurd hnone (h c List.mem_cons_self hs)
      · split
        · exact ⟨t, rfl, fun _ h => h⟩
        · refine ⟨_, rfl, fun q hq => ?_⟩
          rw [Lib.getElem?_insert_eq]
          split
          · simp
          · exact hq
    obtain ⟨t₁, hc, hkeep⟩ := hstep
    obtain ⟨t', ht'⟩ := exists_foldlM_copyLoser cs t₁ fun d hd hs =>
      hkeep _ (h d (List.mem_cons_of_mem _ hd) hs)
    exact ⟨t', by rw [List.foldlM_cons, hc]; exact ht'⟩

end

/-! ## Paths that are settled -/

/-- Two entries have the same content, and the second one a mode the disk can hold. -/
def Matches (e w : FileEntry) : Prop :=
  sameContent e w = true ∧ w.mode &&& 0o777 = w.mode

/-- The tree holds the head's content at a path. -/
def Device.SettledAt (s : Device) (p : Text) : Prop :=
  ∃ e w, s.tree[p]? = some e ∧ s.remote[p]? = some w ∧ Matches e w

section
variable {e w m : FileEntry} {now : Int × Int}

/-- Same content means equal chunks, mode and size. -/
theorem sameContent_iff : sameContent e w = true ↔
    e.chunks = w.chunks ∧ e.mode = w.mode ∧ e.size = w.size := by
  simp [sameContent, and_assoc]

/-- An entry that matches still does once it is written. -/
theorem Matches.renamed (h : Matches m w) : Matches (renamed now m) w := by
  obtain ⟨hc, hmode⟩ := h
  obtain ⟨hchunks, hm, hsize⟩ := sameContent_iff.mp hc
  exact ⟨sameContent_iff.mpr ⟨hchunks, by rw [Pear.renamed, hm, hmode], hsize⟩, hmode⟩

theorem Matches.settled (h : Matches m w) : Matches (settled m) w := by
  obtain ⟨hc, hmode⟩ := h
  obtain ⟨hchunks, hm, hsize⟩ := sameContent_iff.mp hc
  exact ⟨sameContent_iff.mpr ⟨hchunks, by rw [Pear.settled, hm, hmode], hsize⟩, hmode⟩

/-- An entry the disk can hold matches itself. -/
theorem Matches.rfl (h : w.mode &&& 0o777 = w.mode) : Matches w w :=
  ⟨by simp [sameContent], h⟩

end

section
variable {device : Text} {s : Device} {f : FailedRun} {p : Text}

/-- A settled path is not contested, and the merge gives it matching content. -/
theorem Device.SettledAt.decided (h : s.SettledAt p) :
    (∀ side e, ¬s.Loses p side e) ∧ ∃ m w, (decideAt s.recorded s.tree s.remote p).entry = some m ∧
      s.remote[p]? = some w ∧ Matches m w := by
  obtain ⟨e, w, ht, hr, hm⟩ := h
  refine ⟨fun side x hlost => ?_, ?_⟩
  · obtain ⟨le, re, hl, hre, -, -, hc, -⟩ := decidePath_loser hlost
    obtain rfl := Option.some.inj (ht.symm.trans hl)
    obtain rfl := Option.some.inj (hr.symm.trans hre)
    rw [hm.1] at hc
    cases hc
  · rcases decidePath_entry s.recorded[p]? s.tree[p]? s.remote[p]? with he | he
    · exact ⟨e, w, he.trans ht, hr, hm⟩
    · exact ⟨w, w, he.trans hr, hr, .rfl hm.2⟩

/-- Nothing is contested over the head as the base. -/
theorem Device.not_loses_of_recorded (h : s.recorded = s.remote) (p : Text) (side : ConflictSide)
    (e : FileEntry) : ¬s.Loses p side e := by
  intro hlost
  obtain ⟨_, _, -, -, -, hne, -⟩ := decidePath_loser hlost
  exact hne (by rw [h])

/-- The merge of a run, path by path. -/
theorem Device.outcome_result (device : Text) (s : Device) (stamp : Text) :
    MergeResult s.recorded s.tree s.remote (sanitizeDevice device) stamp
      (s.outcome device stamp).merged.files (s.outcome device stamp).conflicts :=
  merge_result (.ofFiles s.recorded) (.ofFiles s.tree) (.ofFiles s.remote) device stamp

/-- The steps of the apply that a failed run has done. -/
def FailPoint.reached (n : Nat) : FailPoint → Nat
  | .steps k => k
  | .publish => n

/-- **What a failed run does**: nothing, or it copies the losers aside, does a part of the apply, and
records what its cut records. -/
theorem Device.fail_cases (device : Text) (s : Device) (f : FailedRun) :
    s.fail device f = s ∨ ∃ t,
      (s.outcome device f.stamp).conflicts.foldlM copyLoser s.tree = some t ∧
      s.fail device f = { s with
        tree := applyCut f.now (onDisk s.tree (s.outcome device f.stamp).conflicts)
          (s.outcome device f.stamp).merged.files (f.point.reached
            (applyOps (onDisk s.tree (s.outcome device f.stamp).conflicts)
              (s.outcome device f.stamp).merged.files).length) t
        recorded := cutRecorded s.recorded s.tree s.remote (s.outcome device f.stamp) f.point.cut
        copies := s.copies ++ (s.outcome device f.stamp).conflicts } := by
  have hres := Device.outcome_result device s f.stamp
  unfold fail interrupt
  dsimp only
  generalize s.outcome device f.stamp = out at hres ⊢
  cases hv : validate out.merged with
  | error => exact .inl rfl
  | ok =>
    obtain ⟨t, ht⟩ := exists_foldlM_copyLoser out.conflicts s.tree fun c hc _ =>
      (hres.copyOf c hc).inputs.1
    refine .inr ⟨t, ht, ?_⟩
    cases f.point with
    | steps k => simp [cutPlace, FailPoint.cut, FailPoint.reached, ht]
    | publish =>
      simp [cutPlace, place, FailPoint.cut, FailPoint.reached, ht, applyAll_eq_cut]

/-- The head does not move. -/
theorem Device.fail_remote (device : Text) (s : Device) (f : FailedRun) : (s.fail device f).remote = s.remote := by
  rcases Device.fail_cases device s f with h | ⟨t, -, h⟩
  · rw [h]
  · rw [h]
    rfl

/-- What is recorded after a failed run is what was, or the head. -/
theorem Device.fail_recorded (device : Text) (s : Device) (f : FailedRun) :
    (s.fail device f).recorded = s.recorded ∨ (s.fail device f).recorded = s.remote := by
  rcases Device.fail_cases device s f with h | ⟨t, -, h⟩
  · exact .inl (by rw [h])
  · rw [h]
    cases f.point with
    | steps k => exact .inl rfl
    | publish =>
      dsimp only [FailPoint.cut, cutRecorded, recordedAfter]
      split
      · exact .inl rfl
      · exact .inr rfl

/-- **A settled path stays settled.** -/
theorem Device.SettledAt.fail (h : s.SettledAt p) (f : FailedRun) :
    (s.fail device f).SettledAt p := by
  obtain ⟨-, m, w, hm, hw, hmatch⟩ := h.decided
  obtain ⟨e, w', ht, hw', hmatch'⟩ := h
  obtain rfl := Option.some.inj (hw.symm.trans hw')
  have hres := Device.outcome_result device s f.stamp
  have hfree : ∀ c ∈ (s.outcome device f.stamp).conflicts, c.localOnly = false → c.copyPath ≠ p :=
    fun c hc hl => (hres.copyOf c hc).copyPath_ne hl (.inr (by simp [hw]))
  have hmerged := (hres.decided p hfree).trans hm
  have hremote := Device.fail_remote device s f
  rcases Device.fail_cases device s f with hf | ⟨t, hcopies, hf⟩
  · exact ⟨e, w, by rw [hf]; exact ht, by rw [hremote]; exact hw, hmatch'⟩
  · have hpt : t[p]? = some e := (foldlM_copyLoser_get hcopies hfree).trans ht
    have htree := congrArg (fun s => s.tree[p]?) hf
    dsimp only at htree
    rcases applyCut_cases f.now _ _ _ t p with hcut | ⟨-, ⟨hnone, -⟩ | ⟨e', he', hcut⟩⟩
    · exact ⟨e, w, htree.trans (hcut.trans hpt), by rw [hremote]; exact hw, hmatch'⟩
    · rw [hmerged] at hnone
      cases hnone
    · obtain rfl := Option.some.inj (hmerged.symm.trans he')
      rcases hcut with hcut | hcut
      · exact ⟨_, w, htree.trans hcut, by rw [hremote]; exact hw, hmatch.renamed⟩
      · exact ⟨_, w, htree.trans hcut, by rw [hremote]; exact hw, hmatch.settled⟩

/-! ## One copy of each loser -/

/-- What holds of a device that only fails: the head is recorded, or every path that was copied is
settled; and no path was copied twice. -/
structure RetryInv (s : Device) : Prop where
  settled : s.recorded = s.remote ∨ ∀ c ∈ s.copies, s.SettledAt c.path
  once : (s.copies.map (·.path)).Nodup

/-- **A failed run that settles what it copied keeps the invariant.** -/
theorem RetryInv.fail (h : RetryInv s) (hset : s.Settles device f) :
    RetryInv (s.fail device f) := by
  have hres := Device.outcome_result device s f.stamp
  have hlost : ∀ c ∈ (s.outcome device f.stamp).conflicts, s.Loses c.path c.side c.entry :=
    fun c hc => (hres.copyOf c hc).lost
  -- A path that was copied before is not contested again.
  have hnew : ∀ c ∈ s.copies, ∀ side e, ¬s.Loses c.path side e := by
    intro c hc
    rcases h.settled with hrec | hall
    · exact fun side e => Device.not_loses_of_recorded hrec c.path side e
    · exact (hall c hc).decided.1
  have hremote := Device.fail_remote device s f
  rcases Device.fail_cases device s f with hf | ⟨t, hcopies, hf⟩
  · rw [hf]
    exact h
  have hcs : (s.fail device f).copies = s.copies ++ (s.outcome device f.stamp).conflicts :=
    congrArg Device.copies hf
  refine ⟨?_, ?_⟩
  · rcases h.settled with hrec | hall
    · refine .inl ?_
      rcases Device.fail_recorded device s f with hr | hr
      · rw [hr, hrec, hremote]
      · rw [hr, hremote]
    have hold : ∀ c ∈ s.copies, (s.fail device f).SettledAt c.path := fun c hc =>
      (hall c hc).fail f
    rcases hset with hnone | ⟨hpub, hdiff⟩ | ⟨k, hk, hwon⟩
    · refine .inr fun c hc => ?_
      rw [hcs] at hc
      rcases List.mem_append.mp hc with hc | hc
      · exact hold c hc
      · exact absurd (hlost c hc) (hnone _ _ _)
    · refine .inl ?_
      rw [hremote, hf, hpub]
      exact if_neg hdiff
    · refine .inr fun c hc => ?_
      rw [hcs] at hc
      rcases List.mem_append.mp hc with hc | hc
      · exact hold c hc
      · obtain ⟨-, w, hw, hmode, hop⟩ := hwon _ _ _ (hlost c hc)
        have htree := congrArg (fun s => s.tree[c.path]?) hf
        dsimp only [hk, FailPoint.reached] at htree
        rw [hk] at htree
        rcases applyCut_renamed f.now t hop with hcut | hcut
        · exact ⟨_, w, htree.trans hcut, by rw [hremote]; exact hw, (Matches.rfl hmode).renamed⟩
        · exact ⟨_, w, htree.trans hcut, by rw [hremote]; exact hw, (Matches.rfl hmode).settled⟩
  · rw [hcs, List.map_append, List.nodup_append]
    refine ⟨h.once, hres.nodup, fun a ha b hb => ?_⟩
    rintro rfl
    obtain ⟨c, hc, rfl⟩ := List.mem_map.mp ha
    obtain ⟨d, hd, hpath⟩ := List.mem_map.mp hb
    exact hnew c hc d.side d.entry (hpath ▸ hlost d hd)

end

end Pear
