import Pear.Merge.Valid

/-!
# The rule table

The documented rules of the merge are a table over what each side did to a path since the base: left
it, changed or added it, or deleted it (`Row`). The code asks whether sides are equal instead, and it
computes the table (`row_iff`). `MergesByTable` says of a whole merge that it follows the table at
every path, keeps every entry that loses, and makes nothing else (`merge_by_table`).

One path is an exception: a conflict copy avoids the names of both sides but not of the base, so a
path that both sides have deleted can come back as the name of a copy
(`copy_takes_deleted_name`).
-/

namespace Pear

/-! ## Rows -/

/-- A side added a path or changed its entry. -/
def Changed (b x : Option FileEntry) : Prop := x ≠ none ∧ x ≠ b

/-- A side deleted a path. -/
def Deleted (b x : Option FileEntry) : Prop := x = none ∧ b ≠ none

/-- The rows of the documented table, and what they prescribe. -/
inductive Row (b l r : Option FileEntry) : Decision → Prop where
  /-- any | unchanged | unchanged: keep -/
  | keep (hl : l = b) (hr : r = b) : Row b l r (.winner b)
  /-- any | changed/added | unchanged: local -/
  | localChanged (hl : Changed b l) (hr : r = b) : Row b l r (.winner l)
  /-- any | unchanged | changed/added: remote -/
  | remoteChanged (hl : l = b) (hr : Changed b r) : Row b l r (.winner r)
  /-- exists | deleted | unchanged: delete -/
  | localDeleted (hl : Deleted b l) (hr : r = b) : Row b l r (.winner none)
  /-- exists | unchanged | deleted: delete -/
  | remoteDeleted (hl : l = b) (hr : Deleted b r) : Row b l r (.winner none)
  /-- Both sides agree that the path is gone. -/
  | bothDeleted (hl : Deleted b l) (hr : Deleted b r) : Row b l r (.winner none)
  /-- exists | deleted | changed: edit beats delete -/
  | remoteEdit (hl : Deleted b l) (hr : Changed b r) : Row b l r (.winner r)
  /-- exists | changed | deleted: edit beats delete -/
  | localEdit (hl : Changed b l) (hr : Deleted b r) : Row b l r (.winner l)
  /-- any | changed/added | changed/added, equal content and mode: keep, newer mtime -/
  | sameEdit {le re : FileEntry} (hle : l = some le) (hre : r = some re) (hl : Changed b l)
      (hr : Changed b r) (hc : sameContent le re = true) :
      Row b l r (.winner (some (if mtimeGe re le then re else le)))
  /-- any | changed/added | changed/added, differs: the remote is as new -/
  | remoteWins {le re : FileEntry} (hle : l = some le) (hre : r = some re) (hl : Changed b l)
      (hr : Changed b r) (hc : sameContent le re = false) (hm : mtimeGe re le = true) :
      Row b l r (.conflict re .localSide le)
  /-- any | changed/added | changed/added, differs: the local side is newer -/
  | localWins {le re : FileEntry} (hle : l = some le) (hre : r = some re) (hl : Changed b l)
      (hr : Changed b r) (hc : sameContent le re = false) (hm : mtimeGe re le = false) :
      Row b l r (.conflict le .remoteSide re)

section
variable {b l r : Option FileEntry} {d : Decision}

/-- What the code decides for a row. -/
theorem Row.decidePath_eq (h : Row b l r d) : decidePath b l r = d := by
  have hboth : ∀ {le re}, l = some le → r = some re → sameContent le re = false → l ≠ r := by
    rintro le re rfl hre hc rfl
    cases hre
    rw [sameContent_refl] at hc
    cases hc
  unfold decidePath
  cases h with
  | keep hl hr => rw [if_pos (hl.trans hr.symm), hl]
  | localChanged hl hr => rw [if_neg (hr ▸ hl.2), if_neg hl.2, if_pos hr]
  | remoteChanged hl hr => rw [if_neg (hl ▸ hr.2.symm), if_pos hl]
  | localDeleted hl hr => rw [if_neg (hr ▸ hl.1 ▸ hl.2.symm), if_neg (hl.1 ▸ hl.2.symm), if_pos hr, hl.1]
  | remoteDeleted hl hr => rw [if_neg (hl ▸ hr.1 ▸ hr.2), if_pos hl, hr.1]
  | bothDeleted hl hr => rw [if_pos (hl.1.trans hr.1.symm), hl.1]
  | remoteEdit hl hr =>
    obtain ⟨re, rfl⟩ := Option.ne_none_iff_exists'.mp hr.1
    rw [hl.1, if_neg (Option.some_ne_none re).symm, if_neg hl.2.symm, if_neg hr.2]
  | localEdit hl hr =>
    obtain ⟨le, rfl⟩ := Option.ne_none_iff_exists'.mp hl.1
    rw [hr.1, if_neg (Option.some_ne_none le), if_neg hl.2, if_neg hr.2.symm]
  | @sameEdit le re hle hre hl hr hc =>
    subst hle hre
    by_cases hlr : some le = some re
    · cases hlr
      rw [if_pos rfl, ite_self]
    · rw [if_neg hlr, if_neg hl.2, if_neg hr.2]
      dsimp only
      rw [if_pos hc]
  | remoteWins hle hre hl hr hc hm =>
    rw [if_neg (hboth hle hre hc), if_neg hl.2, if_neg hr.2]
    subst hle hre
    dsimp only
    rw [if_neg (Bool.eq_false_iff.mp hc), if_pos hm]
  | localWins hle hre hl hr hc hm =>
    rw [if_neg (hboth hle hre hc), if_neg hl.2, if_neg hr.2]
    subst hle hre
    dsimp only
    rw [if_neg (Bool.eq_false_iff.mp hc), if_neg (Bool.eq_false_iff.mp hm)]

/-- A side that moved changed the path or deleted it. -/
theorem changed_or_deleted {b x : Option FileEntry} (h : x ≠ b) : Changed b x ∨ Deleted b x := by
  cases x with
  | none => exact .inr ⟨rfl, h.symm⟩
  | some e => exact .inl ⟨Option.some_ne_none e, h⟩

/-- **The code decides by the table.** -/
theorem row_iff : Row b l r d ↔ decidePath b l r = d := by
  refine ⟨Row.decidePath_eq, ?_⟩
  rintro rfl
  obtain ⟨d, hd⟩ : ∃ d, Row b l r d := by
    by_cases hl : l = b
    · by_cases hr : r = b
      · exact ⟨_, .keep hl hr⟩
      · rcases changed_or_deleted hr with hr | hr
        · exact ⟨_, .remoteChanged hl hr⟩
        · exact ⟨_, .remoteDeleted hl hr⟩
    by_cases hr : r = b
    · rcases changed_or_deleted hl with hl | hl
      · exact ⟨_, .localChanged hl hr⟩
      · exact ⟨_, .localDeleted hl hr⟩
    rcases changed_or_deleted hl with hl | hl <;> rcases changed_or_deleted hr with hr | hr
    · obtain ⟨le, hle⟩ := Option.ne_none_iff_exists'.mp hl.1
      obtain ⟨re, hre⟩ := Option.ne_none_iff_exists'.mp hr.1
      cases hc : sameContent le re with
      | true => exact ⟨_, .sameEdit hle hre hl hr hc⟩
      | false =>
        cases hm : mtimeGe re le with
        | true => exact ⟨_, .remoteWins hle hre hl hr hc hm⟩
        | false => exact ⟨_, .localWins hle hre hl hr hc hm⟩
    · exact ⟨_, .localEdit hl hr⟩
    · exact ⟨_, .remoteEdit hl hr⟩
    · exact ⟨_, .bothDeleted hl hr⟩
  rwa [hd.decidePath_eq]

end

/-! ## The whole merge -/

/-- The files of a side. -/
def ConflictSide.files (l r : FileMap) : ConflictSide → FileMap
  | .localSide => l
  | .remoteSide => r

/-- The side across. -/
def ConflictSide.other : ConflictSide → ConflictSide
  | .localSide => .remoteSide
  | .remoteSide => .localSide

/-- A merge follows the table and loses nothing. -/
structure MergesByTable (base l r : FileMap) (out : MergeOutcome) : Prop where
  /-- At every path, but for those a conflict copy takes, it does what the table prescribes. -/
  prescribed : ∀ p, (∀ c ∈ out.conflicts, c.localOnly = false → c.copyPath ≠ p) →
    ∃ d, Row base[p]? l[p]? r[p]? d ∧ out.merged.files[p]? = d.entry
  /-- An entry that a side added or changed, and that is not kept at its path, is the entry of
  exactly one conflict copy, unless the other side has the same content there. -/
  lost : ∀ (side : ConflictSide) (p : Text) (e : FileEntry),
    (side.files l r)[p]? = some e → base[p]? ≠ some e → out.merged.files[p]? ≠ some e →
    (∀ e', (side.other.files l r)[p]? = some e' → sameContent e e' = false) →
      ∃! c, c ∈ out.conflicts ∧ c.path = p ∧ c.side = side ∧ c.entry = e
  /-- Nothing else is in the merge: a key has a winner, or is a conflict copy outside `.git`. -/
  keys : ∀ p e, out.merged.files[p]? = some e →
    (∃ d, Row base[p]? l[p]? r[p]? d ∧ d.entry = some e) ∨
      ∃ c ∈ out.conflicts, isGitPath c.path = false ∧ c.copyPath = p ∧ c.entry = e
  /-- Every conflict copy outside `.git` is in the merge. -/
  copied : ∀ c ∈ out.conflicts, isGitPath c.path = false →
    out.merged.files[c.copyPath]? = some c.entry
  /-- A copy is at its claimed name, and below the local conflict directory for a path of `.git`. -/
  place : ∀ c ∈ out.conflicts,
    c.copyPath = if isGitPath c.path then localConflictDir ++ '/' :: c.name else c.name
  distinct : out.conflicts.Pairwise fun c d => c.name ≠ d.name
  /-- A claimed name is no key of a side, and no directory prefix of one. -/
  fresh : ∀ c ∈ out.conflicts, ∀ p, l[p]? ≠ none ∨ r[p]? ≠ none →
    c.name ≠ p ∧ c.name ∉ ancestors p
  directory : ∀ c ∈ out.conflicts, (splitDir c.name).1 = (splitDir c.path).1
  dotenv : ∀ c ∈ out.conflicts, isDotenv c.name = isDotenv c.path
  /-- What is applied is what differs from the local side, without the copies made from its own
  files. -/
  applied : out.applyFromRemote = { diff l out.merged.files with
    added := (diff l out.merged.files).added.filter fun p => ¬ ∃ c ∈ out.conflicts,
      c.side = .localSide ∧ isGitPath c.path = false ∧ c.copyPath = p }

/-- What a side changed and the merge does not keep loses its path, unless the content is the other
side's. -/
theorem loser_of_not_kept {base l r : FileMap} {side : ConflictSide} {p : Text} {e : FileEntry}
    (he : (side.files l r)[p]? = some e) (hb : base[p]? ≠ some e)
    (hkept : (decideAt base l r p).entry ≠ some e)
    (hother : ∀ e', (side.other.files l r)[p]? = some e' → sameContent e e' = false) :
    (decideAt base l r p).loser = some (side, e) := by
  have hdec : Decided base[p]? l[p]? r[p]? (decideAt base l r p) := decidePath_decided _ _ _
  generalize decideAt base l r p = d at hdec hkept ⊢
  cases side with
  | localSide =>
    have hl : l[p]? = some e := he
    cases hdec with
    | agree | localMoved | localEdit => exact absurd hl hkept
    | remoteMoved _ h => exact absurd (h.symm.trans hl) hb
    | remoteEdit h => cases hl.symm.trans h
    | newer hle hre _ _ _ hc =>
      cases hl.symm.trans hle
      rw [hother _ hre] at hc
      cases hc
    | localLoses hle =>
      cases hl.symm.trans hle
      rfl
    | remoteLoses hle => exact absurd (hle.symm.trans hl) hkept
  | remoteSide =>
    have hr : r[p]? = some e := he
    cases hdec with
    | agree h => exact absurd (h.trans hr) hkept
    | remoteMoved | remoteEdit => exact absurd hr hkept
    | localMoved _ _ h => exact absurd (h.symm.trans hr) hb
    | localEdit _ h => cases hr.symm.trans h
    | @newer le re hle hre _ _ _ hc =>
      cases hr.symm.trans hre
      have hne : sameContent e le = false := hother _ hle
      rw [sameContent_comm, hc] at hne
      cases hne
    | localLoses _ hre => exact absurd (hre.symm.trans hr) hkept
    | remoteLoses _ hre =>
      cases hr.symm.trans hre
      rfl

section
variable {base l r : Manifest} {localDevice stamp : Text}

/-- **The merge implements its rule table and loses nothing**, for a stamp without a separator. -/
theorem merge_by_table (hs : '/' ∉ stamp) : MergesByTable base.files l.files r.files
    (merge base l r localDevice stamp) := by
  have h := merge_result base l r localDevice stamp
  have hlabel := slash_not_mem_label localDevice
  refine ⟨fun p hfree => ⟨_, row_iff.mpr rfl, h.decided p hfree⟩, fun side p e he hb hkept hother => ?_,
    fun p e hp => ?_, fun c hc hgit => h.copied c hc ((h.copyOf c hc).git.trans hgit),
    fun c hc => ?_, h.distinct, fun c hc p hp => ?_, fun c hc => ?_, fun c hc => ?_, ?_⟩
  · have hin : l.files[p]? ≠ none ∨ r.files[p]? ≠ none := by
      cases side with
      | localSide => exact .inl (by simpa [ConflictSide.files] using Option.ne_none_iff_exists'.mpr ⟨e, he⟩)
      | remoteSide => exact .inr (by simpa [ConflictSide.files] using Option.ne_none_iff_exists'.mpr ⟨e, he⟩)
    rw [h.get_of_input hin] at hkept
    obtain ⟨c, hc, hcp, hcs, hce⟩ := h.complete p side e (loser_of_not_kept he hb hkept hother)
    refine ⟨c, ⟨hc, hcp, hcs, hce⟩, ?_⟩
    rintro d ⟨hd, hdp, -⟩
    exact List.inj_on_of_nodup_map h.nodup hd hc (hdp.trans hcp.symm)
  · rcases h.cases (Option.ne_none_iff_exists'.mpr ⟨e, hp⟩) with ⟨c, hc, hl, rfl⟩ | ⟨-, hdec⟩
    · refine .inr ⟨c, hc, (h.copyOf c hc).git.symm.trans hl, rfl, ?_⟩
      exact Option.some.inj ((h.copied c hc hl).symm.trans hp)
    · exact .inl ⟨_, row_iff.mpr rfl, hdec.symm.trans hp⟩
  · rw [← (h.copyOf c hc).git]
    exact (h.copyOf c hc).place
  · have hfresh := (h.copyOf c hc).fresh
    rw [mem_taken_new] at hfresh
    exact ⟨fun heq => hfresh ⟨p, hp, .inl heq⟩, fun hanc => hfresh ⟨p, hp, .inr hanc⟩⟩
  · obtain ⟨n, hn⟩ := (h.copyOf c hc).candidate
    rw [hn, splitDir_candidate (hlabel _) hs]
  · obtain ⟨n, hn⟩ := (h.copyOf c hc).candidate
    rw [hn, isDotenv_candidate (hlabel _) hs]
  · have hcopies : ∀ p, p ∈ (((merge base l r localDevice stamp).conflicts.filter fun c =>
        c.side = .localSide && !c.localOnly).map (·.copyPath)) ↔
          ∃ c ∈ (merge base l r localDevice stamp).conflicts,
            c.side = .localSide ∧ isGitPath c.path = false ∧ c.copyPath = p := by
      intro p
      simp only [List.mem_map, List.mem_filter, Bool.and_eq_true, decide_eq_true_eq,
        Bool.not_eq_true', and_assoc]
      exact exists_congr fun c => and_congr_right fun hc => by rw [(h.copyOf c hc).git]
    let d := diff l.files (merge base l r localDevice stamp).merged.files
    refine congrArg (fun added : List Text => { d with added }) (List.filter_congr fun p _ => ?_)
    exact decide_eq_decide.mpr (not_congr (hcopies p))

/-- Both sides changed a file, and the remote is newer. -/
theorem merge_by_table_conflict :
    MergesByTable (testManifest [("a.txt".toList, testEntry 0 0)]).files
      (testManifest [("a.txt".toList, testEntry 1 10)]).files
      (testManifest [("a.txt".toList, testEntry 2 20)]).files
      (merge (testManifest [("a.txt".toList, testEntry 0 0)])
        (testManifest [("a.txt".toList, testEntry 1 10)])
        (testManifest [("a.txt".toList, testEntry 2 20)]) "dev".toList (conflictStamp 0)) :=
  merge_by_table (slash_not_mem_conflictStamp 0)

end

/-- **A copy can take the name of a file that both sides have deleted**: the table deletes the path,
and the merge has the losing entry there. -/
theorem copy_takes_deleted_name :
    let gone := "a (conflict from dev 1970-01-01 000000).txt".toList
    let base := testManifest [("a.txt".toList, testEntry 0 0), (gone, testEntry 3 0)]
    let l := testManifest [("a.txt".toList, testEntry 1 10)]
    let r := testManifest [("a.txt".toList, testEntry 2 20)]
    validate base = .ok () ∧ validate l = .ok () ∧ validate r = .ok () ∧
      Row base.files[gone]? l.files[gone]? r.files[gone]? (.winner none) ∧
      (merge base l r "dev".toList (conflictStamp 0)).merged.files[gone]? =
        some (testEntry 1 10) := by
  refine ⟨by decide +kernel, by decide +kernel, by decide +kernel, row_iff.mpr ?_, ?_⟩
  · decide +kernel
  · decide +kernel

end Pear
