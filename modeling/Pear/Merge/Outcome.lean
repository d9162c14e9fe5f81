import Pear.Merge.Names

/-!
# What a merge returns

The merge's loop threads three accumulators through the paths, but its result can be read path by
path. `Decided` lists the rows of the rule table with their conditions, and every decision is one of
them (`decidePath_decided`). `Merged` says what the loop has built for the paths it has seen: the
decided winner at every path that is no conflict copy, the loser's entry at every conflict copy, and
one conflict copy for each lost path, under a name that is new. One round keeps it
(`LoopInv.step`), so the whole loop establishes it (`LoopInv.foldl`, `merge_result`).
-/

namespace Pear

/-- An entry has the content of itself. -/
theorem sameContent_refl (e : FileEntry) : sameContent e e = true := by
  simp [sameContent]

/-- Content is the same both ways. -/
theorem sameContent_comm (x y : FileEntry) : sameContent x y = sameContent y x := by
  simp only [sameContent, eq_comm]

/-! ## The rows of the rule table -/

/-- The rows of the rule table, each with the condition under which it applies. -/
inductive Decided (b l r : Option FileEntry) : Decision → Prop where
  /-- Both sides agree. -/
  | agree (h : l = r) : Decided b l r (.winner l)
  /-- Only the remote moved. -/
  | remoteMoved (hlr : l ≠ r) (h : l = b) : Decided b l r (.winner r)
  /-- Only the local side moved. -/
  | localMoved (hlr : l ≠ r) (hl : l ≠ b) (h : r = b) : Decided b l r (.winner l)
  /-- The remote edited what the local side deleted. -/
  | remoteEdit {re} (hl : l = none) (hr : r = some re) (hlb : l ≠ b) (hrb : r ≠ b) :
      Decided b l r (.winner r)
  /-- The local side edited what the remote deleted. -/
  | localEdit {le} (hl : l = some le) (hr : r = none) (hlb : l ≠ b) (hrb : r ≠ b) :
      Decided b l r (.winner l)
  /-- Both hold the same content, and the newer modification time is kept. -/
  | newer {le re} (hl : l = some le) (hr : r = some re) (hlr : l ≠ r) (hlb : l ≠ b) (hrb : r ≠ b)
      (hc : sameContent le re = true) :
      Decided b l r (.winner (some (if mtimeGe re le then re else le)))
  /-- The remote is newer, or as new: the local entry loses. -/
  | localLoses {le re} (hl : l = some le) (hr : r = some re) (hlr : l ≠ r) (hlb : l ≠ b)
      (hrb : r ≠ b) (hc : sameContent le re = false) (hm : mtimeGe re le = true) :
      Decided b l r (.conflict re .localSide le)
  /-- The local side is newer: the remote entry loses. -/
  | remoteLoses {le re} (hl : l = some le) (hr : r = some re) (hlr : l ≠ r) (hlb : l ≠ b)
      (hrb : r ≠ b) (hc : sameContent le re = false) (hm : mtimeGe re le = false) :
      Decided b l r (.conflict le .remoteSide re)

/-- **Every decision is a row of the table.** -/
theorem decidePath_decided (b l r : Option FileEntry) : Decided b l r (decidePath b l r) := by
  unfold decidePath
  by_cases hlr : l = r
  · rw [if_pos hlr]
    exact .agree hlr
  rw [if_neg hlr]
  by_cases hlb : l = b
  · rw [if_pos hlb]
    exact .remoteMoved hlr hlb
  rw [if_neg hlb]
  by_cases hrb : r = b
  · rw [if_pos hrb]
    exact .localMoved hlr hlb hrb
  rw [if_neg hrb]
  cases l with
  | none =>
    cases r with
    | none => exact absurd rfl hlr
    | some re => exact .remoteEdit rfl rfl hlb hrb
  | some le =>
    cases r with
    | none => exact .localEdit rfl rfl hlb hrb
    | some re =>
      dsimp only
      by_cases hc : sameContent le re = true
      · rw [if_pos hc]
        exact .newer rfl rfl hlr hlb hrb hc
      · rw [if_neg hc]
        have hc := Bool.not_eq_true _ ▸ hc
        by_cases hm : mtimeGe re le = true
        · rw [if_pos hm]
          exact .localLoses rfl rfl hlr hlb hrb hc hm
        · rw [if_neg hm]
          exact .remoteLoses rfl rfl hlr hlb hrb hc (Bool.not_eq_true _ ▸ hm)

/-- The entry a decision leaves at its path. -/
def Decision.entry : Decision → Option FileEntry
  | .winner e => e
  | .conflict w _ _ => some w

/-- The entry and the side a decision sends to a conflict copy. -/
def Decision.loser : Decision → Option (ConflictSide × FileEntry)
  | .winner _ => none
  | .conflict _ side e => some (side, e)

section
variable {b l r : Option FileEntry}

/-- What a decision leaves at a path is the local or the remote entry. -/
theorem decidePath_entry (b l r : Option FileEntry) :
    (decidePath b l r).entry = l ∨ (decidePath b l r).entry = r := by
  have h := decidePath_decided b l r
  generalize decidePath b l r = d at h ⊢
  cases h with
  | agree | localMoved | localEdit => exact .inl rfl
  | remoteMoved | remoteEdit => exact .inr rfl
  | newer hl hr =>
    rw [Decision.entry, hl, hr]
    split
    · exact .inr rfl
    · exact .inl rfl
  | localLoses _ hr => exact .inr hr.symm
  | remoteLoses hl => exact .inl hl.symm

/-- A loser is an entry its side has, at a path both sides changed and hold different content at. -/
theorem decidePath_loser {side : ConflictSide} {e : FileEntry}
    (h : (decidePath b l r).loser = some (side, e)) :
    ∃ le re, l = some le ∧ r = some re ∧ l ≠ b ∧ r ≠ b ∧ sameContent le re = false ∧
      (side = .localSide ∧ e = le ∧ (decidePath b l r).entry = some re ∧ mtimeGe re le = true ∨
        side = .remoteSide ∧ e = re ∧ (decidePath b l r).entry = some le ∧
          mtimeGe re le = false) := by
  have hd := decidePath_decided b l r
  generalize decidePath b l r = d at h hd ⊢
  cases hd with
  | agree | localMoved | localEdit | remoteMoved | remoteEdit | newer => cases h
  | localLoses hl hr _ hlb hrb hc hm =>
    cases h
    exact ⟨_, _, hl, hr, hlb, hrb, hc, .inl ⟨rfl, rfl, rfl, hm⟩⟩
  | remoteLoses hl hr _ hlb hrb hc hm =>
    cases h
    exact ⟨_, _, hl, hr, hlb, hrb, hc, .inr ⟨rfl, rfl, rfl, hm⟩⟩

end

/-! ## The loop -/

/-- The decision at a path. -/
def decideAt (base l r : FileMap) (p : Text) : Decision := decidePath base[p]? l[p]? r[p]?

/-- A conflict copy's claimed name: its path, or its path below the local conflict directory. -/
def ConflictCopy.name (c : ConflictCopy) : Text :=
  if c.localOnly then c.copyPath.drop (localConflictDir.length + 1) else c.copyPath

/-- What a conflict copy records about the decision it comes from, under a name the inputs do not
take. -/
structure CopyOf (base l r : FileMap) (device stamp : Text) (c : ConflictCopy) : Prop where
  lost : (decideAt base l r c.path).loser = some (c.side, c.entry)
  git : c.localOnly = isGitPath c.path
  place : c.copyPath = if c.localOnly then localConflictDir ++ '/' :: c.name else c.name
  candidate : ∃ n, c.name = candidate c.path (c.side.label device) stamp n
  fresh : c.name ∉ (NameSpace.new l r).taken

section
variable {base l r : FileMap} {device stamp : Text} {c : ConflictCopy} {p q : Text}

/-- A path some input has is a name the inputs take. -/
theorem mem_taken_of_input (h : l[q]? ≠ none ∨ r[q]? ≠ none) : q ∈ (NameSpace.new l r).taken :=
  mem_taken_new.mpr ⟨q, h, .inl rfl⟩

/-- What is left at a path comes from an input that has the path. -/
theorem input_of_entry (h : (decideAt base l r q).entry ≠ none) :
    l[q]? ≠ none ∨ r[q]? ≠ none := by
  rcases decidePath_entry base[q]? l[q]? r[q]? with he | he
  · exact .inl (he ▸ h)
  · exact .inr (he ▸ h)

/-- A contested path is in both inputs. -/
theorem CopyOf.inputs (h : CopyOf base l r device stamp c) :
    l[c.path]? ≠ none ∧ r[c.path]? ≠ none := by
  obtain ⟨le, re, hl, hr, -⟩ := decidePath_loser h.lost
  exact ⟨by simp [hl], by simp [hr]⟩

/-- A copy that syncs is not at a path of the inputs. -/
theorem CopyOf.copyPath_ne (h : CopyOf base l r device stamp c) (hl : c.localOnly = false)
    (hq : l[q]? ≠ none ∨ r[q]? ≠ none) : c.copyPath ≠ q := by
  rintro rfl
  have := h.place
  simp only [hl, Bool.false_eq_true, if_false] at this
  exact h.fresh (this ▸ mem_taken_of_input hq)

end

/-- What the merge has built for the paths `done`. -/
structure Merged (base l r : FileMap) (device stamp : Text) (done : List Text) (files : FileMap)
    (conflicts : List ConflictCopy) : Prop where
  /-- A path that is no conflict copy has the entry its decision leaves. -/
  decided : ∀ q : Text, (∀ c ∈ conflicts, c.localOnly = false → c.copyPath ≠ q) →
    files[q]? = if q ∈ done then (decideAt base l r q).entry else none
  /-- A conflict copy that syncs has the loser's entry. -/
  copied : ∀ c ∈ conflicts, c.localOnly = false → files[c.copyPath]? = some c.entry
  copyOf : ∀ c ∈ conflicts, CopyOf base l r device stamp c
  /-- Every lost path has its copy. -/
  complete : ∀ p ∈ done, ∀ side e, (decideAt base l r p).loser = some (side, e) →
    ∃ c ∈ conflicts, c.path = p ∧ c.side = side ∧ c.entry = e
  distinct : conflicts.Pairwise fun c d => c.name ≠ d.name
  /-- Copies stand in the order of their paths. -/
  paths : (conflicts.map (·.path)).Sublist done

/-- The loop's invariant: what is built so far, and that every name in use is taken. -/
structure LoopInv (base l r : FileMap) (device stamp : Text) (done : List Text) (s : MergeState) :
    Prop where
  merged : Merged base l r device stamp done s.files s.conflicts
  inputs : (NameSpace.new l r).taken ⊆ s.names.taken
  claimed : ∀ c ∈ s.conflicts, c.name ∈ s.names.taken

section
variable {base l r : FileMap} {device stamp : Text} {done : List Text} {s : MergeState}
  {p : Text}

/-- A path without a loser adds its winner, if it has one. -/
theorem Merged.winner {files : FileMap} {cs : List ConflictCopy}
    (h : Merged base l r device stamp done files cs) (e : Option FileEntry)
    (hd : decideAt base l r p = .winner e) :
    Merged base l r device stamp (done ++ [p])
      (match e with | some e => files.insert p e | none => files) cs := by
  have hinput : ∀ e', e = some e' → l[p]? ≠ none ∨ r[p]? ≠ none := by
    intro e' he
    have hne : (decideAt base l r p).entry ≠ none := by simp [hd, Decision.entry, he]
    exact input_of_entry hne
  refine ⟨fun q hq => ?_, fun c hc hl => ?_, h.copyOf, fun p' hp' side e' hlost => ?_, h.distinct,
    h.paths.trans (List.sublist_append_left _ _)⟩
  · have hold := h.decided q hq
    cases e with
    | none =>
      rw [hold]
      by_cases hqp : q = p
      · subst hqp
        simp [hd, Decision.entry]
      · simp [hqp]
    | some e =>
      rw [Lib.getElem?_insert_eq, hold]
      by_cases hqp : p = q
      · subst hqp
        simp [hd, Decision.entry]
      · simp [hqp, Ne.symm hqp]
  · cases e with
    | none => exact h.copied c hc hl
    | some e =>
      have hne := (h.copyOf c hc).copyPath_ne hl (hinput e rfl)
      rw [Lib.getElem?_insert_eq, if_neg (Ne.symm hne)]
      exact h.copied c hc hl
  · rw [List.mem_append, List.mem_singleton] at hp'
    rcases hp' with hp' | rfl
    · exact h.complete p' hp' side e' hlost
    · rw [hd] at hlost
      cases hlost

/-- A lost path adds its winner and the new conflict copy. -/
theorem Merged.conflict {files : FileMap} {cs : List ConflictCopy} {c : ConflictCopy}
    (h : Merged base l r device stamp done files cs) {w : FileEntry}
    (hd : decideAt base l r c.path = .conflict w c.side c.entry)
    (hc : CopyOf base l r device stamp c) (hnew : ∀ d ∈ cs, d.name ≠ c.name) :
    Merged base l r device stamp (done ++ [c.path])
      (if c.localOnly then files.insert c.path w
        else (files.insert c.path w).insert c.copyPath c.entry) (cs ++ [c]) := by
  have hinput := hc.inputs
  have hname : ∀ d ∈ cs ++ [c], d.localOnly = false → d.copyPath = d.name := by
    intro d hd hl
    have hplace : d.copyPath = if d.localOnly then localConflictDir ++ '/' :: d.name else d.name := by
      rcases List.mem_append.mp hd with hd | hd
      · exact (h.copyOf d hd).place
      · exact (List.mem_singleton.mp hd) ▸ hc.place
    simpa [hl] using hplace
  refine ⟨fun q hq => ?_, fun d hd' hl => ?_, fun d hd' => ?_, fun p' hp' side e' hlost => ?_, ?_,
    ?_⟩
  · have hold := h.decided q fun d hd' => hq d (List.mem_append_left _ hd')
    have hinsert : (files.insert c.path w)[q]? =
        if q ∈ done ++ [c.path] then (decideAt base l r q).entry else none := by
      rw [Lib.getElem?_insert_eq, hold]
      by_cases hqp : c.path = q
      · subst hqp
        simp [hd, Decision.entry]
      · simp [hqp, Ne.symm hqp]
    cases hl : c.localOnly with
    | true => simpa using hinsert
    | false =>
      have hcq := hq c (by simp) hl
      simpa [Lib.getElem?_insert_eq, hcq] using hinsert
  · rw [List.mem_append, List.mem_singleton] at hd'
    rcases hd' with hd' | rfl
    · have hne : d.copyPath ≠ c.path := (h.copyOf d hd').copyPath_ne hl (.inl hinput.1)
      have hdc : c.localOnly = false → c.copyPath ≠ d.copyPath := by
        intro hcl
        rw [hname c (by simp) hcl, hname d (by simp [hd']) hl]
        exact (hnew d hd').symm
      cases hcl : c.localOnly with
      | true => simp [Lib.getElem?_insert_eq, hne.symm, h.copied d hd' hl]
      | false => simp [Lib.getElem?_insert_eq, hne.symm, hdc hcl, h.copied d hd' hl]
    · simp [hl]
  · rw [List.mem_append, List.mem_singleton] at hd'
    rcases hd' with hd' | rfl
    · exact h.copyOf d hd'
    · exact hc
  · rw [List.mem_append, List.mem_singleton] at hp'
    rcases hp' with hp' | rfl
    · obtain ⟨d, hd', hdp⟩ := h.complete p' hp' side e' hlost
      exact ⟨d, List.mem_append_left _ hd', hdp⟩
    · rw [hc.lost] at hlost
      cases hlost
      exact ⟨c, by simp, rfl, rfl, rfl⟩
  · rw [List.pairwise_append]
    exact ⟨h.distinct, List.pairwise_singleton _ _, fun d hd' c' hc' =>
      List.mem_singleton.mp hc' ▸ hnew d hd'⟩
  · rw [List.map_append, List.map_singleton]
    exact h.paths.append (List.Sublist.refl _)

/-- The conflict copy a lost path gets under a claimed name. -/
def newCopy (side : ConflictSide) (path name : Text) (loser : FileEntry) : ConflictCopy where
  side := side
  path := path
  copyPath := if isGitPath path then localConflictDir ++ '/' :: name else name
  localOnly := isGitPath path
  entry := loser

/-- The claimed name can be read back from the copy. -/
theorem newCopy_name (side : ConflictSide) (path name : Text) (loser : FileEntry) :
    (newCopy side path name loser).name = name := by
  cases h : isGitPath path with
  | false => simp [ConflictCopy.name, newCopy, h]
  | true =>
    simp only [ConflictCopy.name, newCopy, h, if_true]
    rw [List.drop_append, List.drop_of_length_le (by omega)]
    simp

/-- **One round keeps the invariant.** -/
theorem LoopInv.step (h : LoopInv base l r device stamp done s) (p : Text) :
    LoopInv base l r device stamp (done ++ [p]) (s.step base l r device stamp p) := by
  unfold MergeState.step
  cases hd : decidePath base[p]? l[p]? r[p]? with
  | winner e =>
    have hw := h.merged.winner e hd
    cases e with
    | none => exact ⟨hw, h.inputs, h.claimed⟩
    | some e => exact ⟨hw, h.inputs, h.claimed⟩
  | conflict w side loser =>
    have hnew := claim_not_mem s.names p (side.label device) stamp
    have hcand := claim_eq_candidate s.names p (side.label device) stamp
    have htaken := claim_taken s.names p (side.label device) stamp
    dsimp only
    generalize s.names.claim p (side.label device) stamp = cl at hnew hcand htaken ⊢
    obtain ⟨name, names⟩ := cl
    dsimp only at hnew hcand htaken ⊢
    have hname := newCopy_name side p name loser
    have hcopy : CopyOf base l r device stamp (newCopy side p name loser) := by
      refine ⟨?_, rfl, by rw [hname]; rfl, by rw [hname]; exact hcand, ?_⟩
      · simp only [newCopy, decideAt, hd, Decision.loser]
      · rw [hname]
        exact fun hf => hnew (h.inputs hf)
    have hd' : decideAt base l r (newCopy side p name loser).path = .conflict w side loser := hd
    have hm := h.merged.conflict hd' hcopy fun d hd he =>
      hnew (hname ▸ he ▸ h.claimed d hd)
    have hin : (NameSpace.new l r).taken ⊆ names.taken := fun q hq =>
      htaken ▸ List.mem_cons_of_mem _ (h.inputs hq)
    have hcl : ∀ d ∈ s.conflicts ++ [newCopy side p name loser], d.name ∈ names.taken := by
      intro d hd'
      rw [htaken]
      rcases List.mem_append.mp hd' with hd' | hd'
      · exact List.mem_cons_of_mem _ (h.claimed d hd')
      · rw [List.mem_singleton.mp hd', hname]
        exact List.mem_cons_self
    cases hg : isGitPath p with
    | true =>
      simp only [newCopy, hg, if_true] at hm hcl
      exact ⟨hm, hin, hcl⟩
    | false =>
      simp only [newCopy, hg, Bool.false_eq_true, if_false] at hm hcl
      exact ⟨hm, hin, hcl⟩

/-- The rounds over a list of paths keep the invariant. -/
theorem LoopInv.foldl : ∀ (ps : List Text) {done : List Text} {s : MergeState},
    LoopInv base l r device stamp done s →
      LoopInv base l r device stamp (done ++ ps) (ps.foldl (MergeState.step base l r device stamp) s)
  | [], done, s, h => by simpa using h
  | p :: ps, done, s, h => by
    have hrest := LoopInv.foldl ps (h.step p)
    rwa [List.append_assoc, List.singleton_append] at hrest

end

/-! ## The result -/

/-- The result of a merge, path by path. -/
structure MergeResult (base l r : FileMap) (device stamp : Text) (files : FileMap)
    (conflicts : List ConflictCopy) : Prop where
  decided : ∀ q : Text, (∀ c ∈ conflicts, c.localOnly = false → c.copyPath ≠ q) →
    files[q]? = (decideAt base l r q).entry
  copied : ∀ c ∈ conflicts, c.localOnly = false → files[c.copyPath]? = some c.entry
  copyOf : ∀ c ∈ conflicts, CopyOf base l r device stamp c
  complete : ∀ p side e, (decideAt base l r p).loser = some (side, e) →
    ∃ c ∈ conflicts, c.path = p ∧ c.side = side ∧ c.entry = e
  distinct : conflicts.Pairwise fun c d => c.name ≠ d.name
  nodup : (conflicts.map (·.path)).Nodup

/-- **The merge decides every path and copies every loser.** -/
theorem merge_result (base l r : Manifest) (localDevice stamp : Text) :
    MergeResult base.files l.files r.files (sanitizeDevice localDevice) stamp
      (merge base l r localDevice stamp).merged.files
      (merge base l r localDevice stamp).conflicts := by
  have hinit : LoopInv base.files l.files r.files (sanitizeDevice localDevice) stamp []
      { names := .new l.files r.files, files := ∅, conflicts := [] } :=
    ⟨⟨fun q _ => by simp, by simp, by simp, by simp, List.Pairwise.nil, by simp⟩,
      fun q hq => hq, by simp⟩
  have h := (LoopInv.foldl (mergePaths base.files l.files r.files) hinit).merged
  rw [List.nil_append] at h
  have hpaths : ∀ q, q ∉ mergePaths base.files l.files r.files →
      decideAt base.files l.files r.files q = .winner none := by
    intro q hq
    simp only [mergePaths, Lib.mem_keys_union, Lib.union_eq_none_iff, ne_eq, not_or, not_not] at hq
    simp [decideAt, decidePath, hq]
  refine ⟨fun q hq => ?_, h.copied, h.copyOf, fun p side e hlost => ?_, h.distinct,
    h.paths.nodup (Lib.nodup_keys _)⟩
  · refine (h.decided q hq).trans ?_
    split
    · rfl
    · rename_i hn
      rw [hpaths q hn, Decision.entry]
  · refine h.complete p ?_ side e hlost
    by_contra hn
    rw [hpaths p hn] at hlost
    cases hlost

/-- Two copies of one kind at one path are one copy. -/
theorem MergeResult.eq_of_copyPath {base l r files : FileMap} {device stamp : Text}
    {conflicts : List ConflictCopy} (h : MergeResult base l r device stamp files conflicts)
    {c d : ConflictCopy} (hc : c ∈ conflicts) (hd : d ∈ conflicts) (hl : c.localOnly = d.localOnly)
    (hpath : c.copyPath = d.copyPath) : c = d := by
  have hnames : (conflicts.map (·.name)).Nodup := List.pairwise_map.mpr h.distinct
  have hcplace := (h.copyOf c hc).place
  have hdplace := (h.copyOf d hd).place
  rw [hl] at hcplace
  have hplaces := hcplace.symm.trans (hpath.trans hdplace)
  refine List.inj_on_of_nodup_map hnames hc hd ?_
  cases hk : d.localOnly with
  | true => simpa [hk] using hplaces
  | false => simpa [hk] using hplaces

/-- A merge result without conflict copies is its decisions. -/
theorem MergeResult.get_of_no_conflicts {base l r files : FileMap} {device stamp : Text}
    (h : MergeResult base l r device stamp files []) (q : Text) :
    files[q]? = (decideAt base l r q).entry :=
  h.decided q (by simp)

/-- **A merge is a given map, without conflict copies, exactly when every decision is that map's
entry.** -/
theorem MergeResult.decides_iff {base l r files : FileMap} {device stamp : Text}
    {conflicts : List ConflictCopy} (h : MergeResult base l r device stamp files conflicts)
    (m : FileMap) :
    conflicts = [] ∧ files = m ↔ ∀ p, decideAt base l r p = .winner m[p]? := by
  constructor
  · rintro ⟨rfl, rfl⟩ p
    have hget := h.get_of_no_conflicts p
    cases hd : decideAt base l r p with
    | winner e => rw [hget, hd]; rfl
    | conflict w side e =>
      obtain ⟨c, hc, -⟩ := h.complete p side e (by rw [hd]; rfl)
      cases hc
  · intro hall
    have hnil : conflicts = [] := by
      refine List.eq_nil_iff_forall_not_mem.mpr fun c hc => ?_
      have hlost := (h.copyOf c hc).lost
      rw [hall c.path] at hlost
      cases hlost
    subst hnil
    refine ⟨rfl, Lib.map_ext fun p => ?_⟩
    rw [h.get_of_no_conflicts p, hall p]
    rfl

end Pear
