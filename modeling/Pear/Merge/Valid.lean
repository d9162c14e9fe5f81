import Pear.Merge.Outcome

/-!
# When a merge is valid

The merge decides each path alone, but validity relates a file to its directories. Everything
except one clash survives: keys stay valid paths, chunk references stay digests, and a conflict copy
is never a directory of a key nor below one that is a file (`merged_file_directory`). The clash is a
file one side added or changed while the other added or changed something below it (`Clash`): each
side alone is valid, both survive the merge, and the merged manifest is refused
(`MergeResult.valid_iff`).
-/

namespace Pear

/-- Only one side has the path, and it differs there from the base. -/
def OnlyIn (base x y : FileMap) (p : Text) : Prop :=
  x[p]? ≠ none ∧ y[p]? = none ∧ x[p]? ≠ base[p]?

/-- A path only one side has and changed is a directory of a path only the other has and changed. -/
def Clash (base l r : FileMap) : Prop :=
  ∃ p q, q ∈ ancestors p ∧
    (OnlyIn base l r p ∧ OnlyIn base r l q ∨ OnlyIn base r l p ∧ OnlyIn base l r q)

section
variable {base l r files : FileMap} {device stamp : Text} {conflicts : List ConflictCopy}
  {p q : Text}

/-- A path only the local side has survives exactly when it differs from the base. -/
theorem entry_of_remote_none (hl : l[p]? ≠ none) (hr : r[p]? = none) :
    (decideAt base l r p).entry ≠ none ↔ l[p]? ≠ base[p]? := by
  unfold decideAt
  rw [hr]
  have h := decidePath_decided base[p]? l[p]? none
  generalize decidePath base[p]? l[p]? none = d at h ⊢
  cases h with
  | agree h => exact absurd h hl
  | remoteMoved _ h => simp [Decision.entry, h]
  | localMoved _ hlb | localEdit _ _ hlb => simp [Decision.entry, hl, hlb]
  | remoteEdit _ h | newer _ h | localLoses _ h | remoteLoses _ h => cases h

/-- A path only the remote has survives exactly when it differs from the base. -/
theorem entry_of_local_none (hr : r[p]? ≠ none) (hl : l[p]? = none) :
    (decideAt base l r p).entry ≠ none ↔ r[p]? ≠ base[p]? := by
  unfold decideAt
  rw [hl]
  have h := decidePath_decided base[p]? none r[p]?
  generalize decidePath base[p]? none r[p]? = d at h ⊢
  cases h with
  | agree h => exact absurd h.symm hr
  | remoteMoved _ h => simp [Decision.entry, ← h, hr]
  | localMoved _ _ h => simp [Decision.entry, h]
  | remoteEdit _ _ _ hrb => simp [Decision.entry, hr, hrb]
  | localEdit h | newer h | localLoses h | remoteLoses h => cases h

/-- A merged path is a conflict copy that syncs or has its decision's entry. -/
theorem MergeResult.cases (h : MergeResult base l r device stamp files conflicts)
    (hp : files[p]? ≠ none) :
    (∃ c ∈ conflicts, c.localOnly = false ∧ c.copyPath = p) ∨
      (decideAt base l r p).entry ≠ none ∧ files[p]? = (decideAt base l r p).entry := by
  by_cases hc : ∃ c ∈ conflicts, c.localOnly = false ∧ c.copyPath = p
  · exact .inl hc
  · have he := h.decided p fun c hc' hl he => hc ⟨c, hc', hl, he⟩
    exact .inr ⟨he ▸ hp, he⟩

/-- What an input has and a decision keeps is in the merged map. -/
theorem MergeResult.get_of_input (h : MergeResult base l r device stamp files conflicts)
    (hp : l[p]? ≠ none ∨ r[p]? ≠ none) : files[p]? = (decideAt base l r p).entry :=
  h.decided p fun c hc hl => (h.copyOf c hc).copyPath_ne hl hp

/-- A copy that syncs stands at its claimed name. -/
theorem CopyOf.copyPath_eq {c : ConflictCopy} (h : CopyOf base l r device stamp c)
    (hl : c.localOnly = false) : c.copyPath = c.name := by
  simpa [hl] using h.place

/-- The directory prefixes of a synced copy are those of its path. -/
theorem CopyOf.ancestors_copyPath {c : ConflictCopy} (h : CopyOf base l r device stamp c)
    (hl : c.localOnly = false) (hd : ∀ side, '/' ∉ ConflictSide.label device side)
    (hs : '/' ∉ stamp) : ancestors c.copyPath = ancestors c.path := by
  obtain ⟨n, hn⟩ := h.candidate
  rw [h.copyPath_eq hl, hn, ancestors_candidate (hd _) hs]

/-- **A file that is also a directory comes from a clash.** Conflict copies play no part: a copy has
the directories of a path both sides have, and its own name is no directory of an input's path. -/
theorem merged_file_directory (h : MergeResult base l r device stamp files conflicts)
    (hl : Valid l) (hr : Valid r) (hd : ∀ side, '/' ∉ ConflictSide.label device side)
    (hs : '/' ∉ stamp) (hp : files[p]? ≠ none) (hq : files[q]? ≠ none) (ha : q ∈ ancestors p) :
    Clash base l r := by
  -- a path of an input that has `q` above it and is in the merged map
  obtain ⟨p', hp', ha', hin⟩ :
      ∃ p', (decideAt base l r p').entry ≠ none ∧ q ∈ ancestors p' ∧
        (l[p']? ≠ none ∨ r[p']? ≠ none) := by
    rcases h.cases hp with ⟨c, hc, hcl, rfl⟩ | ⟨he, -⟩
    · have hof := h.copyOf c hc
      rw [hof.ancestors_copyPath hcl hd hs] at ha
      obtain ⟨le, re, -, -, -, -, -, hcase⟩ := decidePath_loser hof.lost
      refine ⟨c.path, ?_, ha, .inl hof.inputs.1⟩
      rcases hcase with ⟨-, -, he, -⟩ | ⟨-, -, he, -⟩ <;> simp [decideAt, he]
    · exact ⟨p, he, ha, input_of_entry he⟩
  have hq' : (decideAt base l r q).entry ≠ none := by
    rcases h.cases hq with ⟨c, hc, hcl, rfl⟩ | ⟨he, -⟩
    · have hof := h.copyOf c hc
      refine absurd ?_ hof.fresh
      rw [← hof.copyPath_eq hcl]
      exact mem_taken_new.mpr ⟨p', hin, .inr ha'⟩
    · exact he
  -- each side is valid, so `p'` and `q` are on different sides
  have hlp : l[p']? ≠ none → l[q]? = none := fun hne => hl.noDir p' hne q ha'
  have hrp : r[p']? ≠ none → r[q]? = none := fun hne => hr.noDir p' hne q ha'
  rcases hin with hlp' | hrp'
  · have hlq := hlp hlp'
    have hrq := (input_of_entry hq').resolve_left fun hne => hne hlq
    have hrp' : r[p']? = none := by
      by_contra hne
      exact hrq (hrp hne)
    exact ⟨p', q, ha', .inl ⟨⟨hlp', hrp', (entry_of_remote_none hlp' hrp').mp hp'⟩,
      ⟨hrq, hlq, (entry_of_local_none hrq hlq).mp hq'⟩⟩⟩
  · have hrq := hrp hrp'
    have hlq := (input_of_entry hq').resolve_right fun hne => hne hrq
    have hlp' : l[p']? = none := by
      by_contra hne
      exact hlq (hlp hne)
    exact ⟨p', q, ha', .inr ⟨⟨hrp', hlp', (entry_of_local_none hrp' hlp').mp hp'⟩,
      ⟨hlq, hrq, (entry_of_remote_none hlq hrq).mp hq'⟩⟩⟩

/-- A path only one side has and changed survives the merge. -/
theorem MergeResult.of_onlyIn (h : MergeResult base l r device stamp files conflicts)
    (hp : OnlyIn base l r p ∨ OnlyIn base r l p) : files[p]? ≠ none := by
  rcases hp with ⟨hl, hr, hb⟩ | ⟨hr, hl, hb⟩
  · rw [h.get_of_input (.inl hl)]
    exact (entry_of_remote_none hl hr).mpr hb
  · rw [h.get_of_input (.inr hr)]
    exact (entry_of_local_none hr hl).mpr hb

/-- **A merge of valid maps is valid exactly when it has no clash.** -/
theorem MergeResult.valid_iff (h : MergeResult base l r device stamp files conflicts)
    (hl : Valid l) (hr : Valid r) (hd : ∀ side, '/' ∉ ConflictSide.label device side)
    (hs : '/' ∉ stamp) : Valid files ↔ ¬ Clash base l r := by
  constructor
  · rintro hv ⟨p, q, ha, hcase⟩
    have hpq : files[p]? ≠ none ∧ files[q]? ≠ none := by
      rcases hcase with ⟨hp, hq⟩ | ⟨hp, hq⟩
      · exact ⟨h.of_onlyIn (.inl hp), h.of_onlyIn (.inr hq)⟩
      · exact ⟨h.of_onlyIn (.inr hp), h.of_onlyIn (.inl hq)⟩
    exact hpq.2 (hv.noDir p hpq.1 q ha)
  · intro hclash
    have hpath : ∀ p : Text, l[p]? ≠ none ∨ r[p]? ≠ none → ValidPath p := fun p hp =>
      hp.elim (hl.path p) (hr.path p)
    refine ⟨fun p hp => ?_, fun p e he x hx => ?_, fun p hp q ha => ?_⟩
    · rcases h.cases hp with ⟨c, hc, hcl, rfl⟩ | ⟨he, -⟩
      · have hof := h.copyOf c hc
        obtain ⟨n, hn⟩ := hof.candidate
        rw [hof.copyPath_eq hcl, hn]
        exact (hpath c.path (.inl hof.inputs.1)).candidate (hd _) hs
      · exact hpath p (input_of_entry he)
    · have hentry : (∃ p : Text, l[p]? = some e) ∨ ∃ p : Text, r[p]? = some e := by
        rcases h.cases (p := p) (by simp [he]) with ⟨c, hc, hcl, rfl⟩ | ⟨-, hfe⟩
        · rw [h.copied c hc hcl] at he
          obtain rfl := Option.some.inj he
          obtain ⟨le, re, hle, hre, -, -, -, hcase⟩ := decidePath_loser (h.copyOf c hc).lost
          rcases hcase with ⟨-, he, -⟩ | ⟨-, he, -⟩
          · exact .inl ⟨c.path, he ▸ hle⟩
          · exact .inr ⟨c.path, he ▸ hre⟩
        · rw [hfe] at he
          rcases decidePath_entry base[p]? l[p]? r[p]? with hside | hside
          · exact .inl ⟨p, hside ▸ he⟩
          · exact .inr ⟨p, hside ▸ he⟩
      rcases hentry with ⟨p, hp⟩ | ⟨p, hp⟩
      · exact hl.hash p e hp x hx
      · exact hr.hash p e hp x hx
    · by_contra hq
      exact hclash (merged_file_directory h hl hr hd hs hp hq ha)

end

/-! ## The claim on `merge` -/

/-- **A merge keeps manifests valid exactly when no path that one side alone added or changed is a
directory of one that the other side alone added or changed.** -/
theorem merge_validates_iff {base l r : Manifest} {localDevice : Text} {now : Int}
    (hl : validate l = .ok ()) (hr : validate r = .ok ()) :
    validate (merge base l r localDevice (conflictStamp now)).merged = .ok () ↔
      ¬ Clash base.files l.files r.files := by
  rw [validate_eq_ok_iff]
  exact (merge_result base l r localDevice (conflictStamp now)).valid_iff
    (validate_eq_ok_iff.mp hl) (validate_eq_ok_iff.mp hr) (slash_not_mem_label localDevice)
    (slash_not_mem_conflictStamp now)

/-- The equivalence at a file each side added: no clash, and the merge is accepted. -/
theorem merge_validates_two_adds :
    validate (merge (testManifest []) (testManifest [("a".toList, testEntry 1 10)])
      (testManifest [("b/c".toList, testEntry 2 20)]) "dev".toList (conflictStamp 0)).merged =
        .ok () ↔
      ¬ Clash ∅ (testManifest [("a".toList, testEntry 1 10)]).files
        (testManifest [("b/c".toList, testEntry 2 20)]).files :=
  merge_validates_iff (by decide) (by decide)

/-- The local side adds the file `a`, the remote adds `a/b`: three valid manifests whose merge is
refused. -/
theorem merge_invalid_file_directory :
    validate (testManifest []) = .ok () ∧
    validate (testManifest [("a".toList, testEntry 1 10)]) = .ok () ∧
    validate (testManifest [("a/b".toList, testEntry 2 20)]) = .ok () ∧
    validate (merge (testManifest []) (testManifest [("a".toList, testEntry 1 10)])
      (testManifest [("a/b".toList, testEntry 2 20)]) "dev".toList (conflictStamp 0)).merged =
        .error (.fileIsDirectory "a/b".toList "a".toList) := by
  decide

end Pear
