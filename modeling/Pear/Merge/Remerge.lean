import Pear.Merge.Outcome

/-!
# Re-merging a published head

A device merges its tree `a` with another device's head `b` and publishes the result; the other
device then merges its own tree, which is still `b`, against that head, over the same base. Wherever
`b`'s entry won, or only one side moved, it lands on the head. Where `a`'s entry won as the newer one
it does not (`remerge_conflicts_again`): the second merge sees two different changes of the base, the
newer one remote, and preserves `b`'s entry a second time. Nor where a conflict copy happens to be
the file that the base has under the copy's name: the copy reads as unchanged on the other side, and
deleted here. Everywhere else the head is stable (`remerge_stable_iff`).
-/

namespace Pear

/-- Both sides changed an entry to different contents, and the local one is the newer. -/
def LocalNewer (b l r : Option FileEntry) : Prop :=
  ∃ le re, l = some le ∧ r = some re ∧ l ≠ b ∧ r ≠ b ∧ sameContent le re = false ∧
    mtimeGe re le = false

section
variable {b l r : Option FileEntry}

/-- Of two modification times one is at least the other. -/
theorem mtimeGe_of_not {x y : FileEntry} (h : mtimeGe x y = false) : mtimeGe y x = true := by
  simp only [mtimeGe, Bool.or_eq_false_iff, Bool.and_eq_false_iff, decide_eq_false_iff_not,
    Bool.or_eq_true, Bool.and_eq_true, decide_eq_true_eq] at h ⊢
  omega

/-- Equal sides are agreed on. -/
theorem decidePath_self (b r : Option FileEntry) : decidePath b r r = .winner r := by
  simp [decidePath]

/-- **Deciding against a decision.** A side that meets the outcome of a decision at its path agrees
with it, unless the other side's newer entry had won. -/
theorem decidePath_again (b l r : Option FileEntry) :
    decidePath b r (decidePath b l r).entry = .winner (decidePath b l r).entry ↔
      ¬LocalNewer b l r := by
  have h := decidePath_decided b l r
  generalize decidePath b l r = d at h ⊢
  cases h with
  | agree h =>
    subst h
    refine iff_of_true (decidePath_self b l) ?_
    rintro ⟨le, re, hl, hr, -, -, hc, -⟩
    obtain rfl := Option.some.inj (hl.symm.trans hr)
    simp [sameContent] at hc
  | remoteMoved _ hlb =>
    refine iff_of_true (decidePath_self b r) ?_
    rintro ⟨-, -, -, -, hne, -⟩
    exact hne hlb
  | localMoved hlr _ hrb =>
    refine iff_of_true ?_ ?_
    · simp [Decision.entry, decidePath, ← hrb, Ne.symm hlr]
    · rintro ⟨-, -, -, -, -, hne, -⟩
      exact hne hrb
  | remoteEdit hl =>
    refine iff_of_true (decidePath_self b r) ?_
    rintro ⟨le, -, hle, -⟩
    rw [hl] at hle
    cases hle
  | localEdit hl hr hlb hrb =>
    subst hl hr
    refine iff_of_true ?_ ?_
    · simp [Decision.entry, decidePath, hlb, hrb]
    · rintro ⟨-, re, -, hre, -⟩
      cases hre
  | @newer le re hl hr hlr hlb hrb hc =>
    subst hl hr
    refine iff_of_true ?_ ?_
    · by_cases hm : mtimeGe re le = true
      · rw [if_pos hm]
        exact decidePath_self b _
      · have hge := mtimeGe_of_not (Bool.not_eq_true _ ▸ hm)
        rw [sameContent_comm] at hc
        simp [Decision.entry, decidePath, hm, hlb, hrb, Ne.symm hlr, hc, hge]
    · rintro ⟨x, y, hx, hy, -, -, hxy, -⟩
      cases hx
      cases hy
      rw [hc] at hxy
      cases hxy
  | @localLoses le re hl hr _ _ _ _ hm =>
    subst hl hr
    refine iff_of_true (decidePath_self b _) ?_
    rintro ⟨x, y, hx, hy, -, -, -, hxy⟩
    cases hx
    cases hy
    rw [hm] at hxy
    cases hxy
  | @remoteLoses le re hl hr hlr hlb hrb hc hm =>
    subst hl hr
    refine iff_of_false ?_ (not_not.mpr ⟨le, re, rfl, rfl, hlb, hrb, hc, hm⟩)
    have hge := mtimeGe_of_not hm
    rw [sameContent_comm] at hc
    simp [Decision.entry, decidePath, hlb, hrb, Ne.symm hlr, hc, hge]

/-- An addition of the other side is adopted, unless it is what the base had here. -/
theorem decidePath_added (b : Option FileEntry) (e : FileEntry) :
    decidePath b none (some e) = .winner (some e) ↔ b ≠ some e := by
  by_cases hb : b = some e
  · simp [decidePath, hb]
  · refine iff_of_true ?_ hb
    by_cases hn : b = none
    · simp [decidePath, hn]
    · simp [decidePath, Ne.symm hb, Ne.symm hn]

end

/-- **When a published head is stable.** Let `a` merge with `b` and publish. The other device's merge
of `b` with that head has no conflict and is the head, and so is the publisher's own next merge,
exactly when no entry of `a` won as the newer of two different changes, and no conflict copy that
syncs is what the base has under its name. -/
theorem remerge_stable_iff (base a b : Manifest) (deviceA deviceB stamp stamp' stamp'' : Text) :
    ((merge base b (merge base a b deviceA stamp).merged deviceB stamp').conflicts = [] ∧
      (merge base b (merge base a b deviceA stamp).merged deviceB stamp').merged.files =
        (merge base a b deviceA stamp).merged.files ∧
      (merge base (merge base a b deviceA stamp).merged (merge base a b deviceA stamp).merged
        deviceA stamp'').merged.files = (merge base a b deviceA stamp).merged.files) ↔
    (∀ p : Text, ¬LocalNewer base.files[p]? a.files[p]? b.files[p]?) ∧
      ∀ c ∈ (merge base a b deviceA stamp).conflicts, c.localOnly = false →
        base.files[c.copyPath]? ≠ some c.entry := by
  have hfirst := merge_result base a b deviceA stamp
  generalize merge base a b deviceA stamp = first at hfirst ⊢
  have hagain := (merge_result base b first.merged deviceB stamp').decides_iff first.merged.files
  have hown := (merge_result base first.merged first.merged deviceA stamp'').decides_iff
    first.merged.files
  have hself : (merge base first.merged first.merged deviceA stamp'').merged.files =
      first.merged.files := (hown.mpr fun p => decidePath_self _ _).2
  -- At a conflict copy the second merge sees an addition, elsewhere the first one's decision.
  have hcopy : ∀ c ∈ first.conflicts, c.localOnly = false →
      (decideAt base.files b.files first.merged.files c.copyPath =
        .winner first.merged.files[c.copyPath]? ↔ base.files[c.copyPath]? ≠ some c.entry) := by
    intro c hc hl
    have hnone : b.files[c.copyPath]? = none := by
      by_contra hne
      exact (hfirst.copyOf c hc).copyPath_ne hl (.inr hne) rfl
    rw [decideAt, hnone, hfirst.copied c hc hl]
    exact decidePath_added _ _
  have hrest : ∀ p : Text, (∀ c ∈ first.conflicts, c.localOnly = false → c.copyPath ≠ p) →
      (decideAt base.files b.files first.merged.files p = .winner first.merged.files[p]? ↔
        ¬LocalNewer base.files[p]? a.files[p]? b.files[p]?) := by
    intro p hp
    rw [decideAt, hfirst.decided p hp]
    exact decidePath_again _ _ _
  rw [← and_assoc, hagain, and_iff_left hself]
  constructor
  · refine fun hall => ⟨fun p => ?_, fun c hc hl => (hcopy c hc hl).mp (hall _)⟩
    by_cases hp : ∀ c ∈ first.conflicts, c.localOnly = false → c.copyPath ≠ p
    · exact (hrest p hp).mp (hall p)
    · push Not at hp
      obtain ⟨c, hc, hl, rfl⟩ := hp
      rintro ⟨le, re, -, hre, -⟩
      refine (hfirst.copyOf c hc).copyPath_ne hl (.inr ?_) rfl
      simp [hre]
  · rintro ⟨hnewer, hbase⟩ p
    by_cases hp : ∀ c ∈ first.conflicts, c.localOnly = false → c.copyPath ≠ p
    · exact (hrest p hp).mpr (hnewer p)
    · push Not at hp
      obtain ⟨c, hc, hl, rfl⟩ := hp
      exact (hcopy c hc hl).mpr (hbase c hc hl)

/-- One device's edit is the newer one and wins, with the other's beside it: the other device, which
still holds its edit, finds a conflict with the published head and adds a second copy of it. -/
theorem remerge_conflicts_again :
    let base := testManifest [("f".toList, testEntry 1 10)]
    let a := testManifest [("f".toList, testEntry 2 30)]
    let b := testManifest [("f".toList, testEntry 3 20)]
    let head := (merge base a b "a".toList (conflictStamp 0)).merged
    let out := merge base b head "b".toList (conflictStamp 0)
    validate a = .ok () ∧ validate b = .ok () ∧ validate head = .ok () ∧
      out.conflicts.length = 1 ∧ head.files.toList.length = 2 ∧
      out.merged.files.toList.length = 3 := by
  decide

end Pear
