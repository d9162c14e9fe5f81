import Pear.Converge.Fleet

/-!
# Whose version loses below `.git`

The losing side of a conflict below `.git` is kept under `.pear/conflicts` of the device that runs the
merge, and nowhere else. A ledger over the fleet records which device wrote which version and which
versions lost. When a device merges, its own unpublished version may lose to the head's, and is kept
on its own disk; but it may also be the newer one, and then the version that loses is one that
another device has published. That device sees the winner as a plain remote change and keeps nothing
(`published_loser_kept_elsewhere`).

In runs without such a merge, and in which no copy takes the name of an older one, every version that
loses is one its device has written, and its bytes are on that device's disk
(`losers_keep_their_version`).
-/

namespace Pear

/-- What a file below `.pear/conflicts` holds: the bytes of the newest copy made under its name. -/
def Member.aside (m : Member) (name : Text) : Option (List Text) :=
  (m.kept.filter (·.copyPath = name)).getLast?.map (·.entry.chunks)

/-- The fleet with a record of the versions each device wrote, and of the conflict copies made below
`.pear/conflicts`, each with the device that made it. -/
structure Ledger (D : Type) where
  fleet : Fleet D
  wrote : D → List (Text × FileEntry)
  lost : List (D × ConflictCopy)

section
variable {D : Type} [DecidableEq D]

/-- One step of the fleet, with what it adds to the record. -/
def Ledger.step (name : D → Text) (s : Ledger D) (e : D × FleetEvent) : Option (Ledger D) :=
  (s.fleet.step name e).map fun fleet =>
    { fleet
      wrote := match e.2 with
        | .edit p (some entry) => Function.update s.wrote e.1 ((p, entry) :: s.wrote e.1)
        | _ => s.wrote
      lost := match e.2, (fleet.member e.1).phase with
        | .place _, .placed _ _ _ _ out =>
          (out.conflicts.filter (·.localOnly)).map ((e.1, ·)) ++ s.lost
        | _, _ => s.lost }

/-- Devices that never converged, each of which has written what it has. -/
def Ledger.fresh (tree : D → FileMap) : Ledger D where
  fleet := .fresh tree
  wrote d := (tree d).toList
  lost := []

/-- The version that lost is one that device `d` wrote. A local loser is the merging device's. -/
def Ledger.Loser (s : Ledger D) (d : D) (x : D × ConflictCopy) : Prop :=
  (x.2.path, x.2.entry) ∈ s.wrote d ∧ (x.2.side = .localSide → d = x.1)

/-- A merge keeps a device to its own losers: below `.git` no version of the head loses to a newer
local one, and no copy takes the name of an older copy with other bytes. -/
def Ledger.KeepsOwn (name : D → Text) (s : Ledger D) : D × FleetEvent → Prop
  | (d, .place stamp) => ∀ base seq remote captured,
      (s.fleet.member d).phase = .scanned base seq remote captured →
      ∀ p, isGitPath p = true → ∀ side e,
        (decideAt base captured remote p).loser = some (side, e) →
          side = .localSide ∧ ∀ n, ∀ k ∈ (s.fleet.member d).kept,
            k.copyPath = localConflictDir ++
                '/' :: candidate p (sanitizeDevice (name d)) stamp n →
              k.entry.chunks = e.chunks
  | _ => True

end

/-! ## A device's changes are its own -/

/-- Below `.git`, what a file set has and the base does not was written here. -/
def Own (wrote : List (Text × FileEntry)) (files base : FileMap) : Prop :=
  ∀ p e, isGitPath p = true → files[p]? = some e → base[p]? ≠ some e → (p, e) ∈ wrote

/-- What holds of a device: its changes against what it has recorded, and against the base it holds
in memory, are its own. -/
structure OwnInv (wrote : List (Text × FileEntry)) (m : Member) : Prop where
  recorded : Own wrote m.tree m.recorded
  attempt : ∀ base, m.phase = .attempt base → Own wrote m.tree base
  fetched : ∀ base seq remote, m.phase = .fetched base seq remote → Own wrote m.tree base
  scanned : ∀ base seq remote captured, m.phase = .scanned base seq remote captured →
    Own wrote captured base ∧ Own wrote m.tree captured
  placed : ∀ base seq remote captured out, m.phase = .placed base seq remote captured out →
    Own wrote m.tree remote ∧ Own wrote m.tree out.merged.files

section
variable {wrote wrote' : List (Text × FileEntry)} {a b c base captured remote : FileMap} {m : Member}

theorem Own.refl (a : FileMap) : Own wrote a a := fun _ _ _ h hne => absurd h hne

/-- A change against a base was made before or after any state in between. -/
theorem Own.trans (h : Own wrote a b) (h' : Own wrote b c) : Own wrote a c := by
  intro p e hp ha hc
  by_cases hb : b[p]? = some e
  · exact h' p e hp hb hc
  · exact h p e hp ha hb

/-- Writing more changes nothing. -/
theorem Own.mono (h : Own wrote a b) (hsub : wrote ⊆ wrote') : Own wrote' a b :=
  fun p e hp ha hb => hsub (h p e hp ha hb)

/-- An edit is the device's own. -/
theorem Own.edit (h : Own wrote m.tree base) (p : Text) (e : Option FileEntry)
    (hsub : wrote ⊆ wrote') (hnew : ∀ x, e = some x → (p, x) ∈ wrote') :
    Own wrote' (m.edit p e).tree base := by
  intro q x hq ht hb
  by_cases hqp : q = p
  · subst hqp
    refine hnew x ?_
    cases e with
    | none =>
      have hnone : (m.edit q none).tree[q]? = none := by simp [Member.edit]
      rw [hnone] at ht
      cases ht
    | some y =>
      have hsome : (m.edit q (some y)).tree[q]? = some y := by simp [Member.edit]
      exact hsome.symm.trans ht
  · rw [m.edit_get e hqp] at ht
    exact hsub (h q x hq ht hb)

/-- What a merge keeps against the remote is a change of the captured tree. -/
theorem decidePath_own {b l r : Option FileEntry} {e : FileEntry}
    (h : (decidePath b l r).entry = some e) (hr : r ≠ some e) : l = some e ∧ b ≠ some e := by
  have hd := decidePath_decided b l r
  generalize decidePath b l r = d at h hd
  cases hd with
  | agree hlr => exact absurd (hlr ▸ h) hr
  | remoteMoved | remoteEdit => exact absurd h hr
  | localMoved _ hlb => exact ⟨h, fun hb => hlb (h.trans hb.symm)⟩
  | localEdit _ _ hlb => exact ⟨h, fun hb => hlb (h.trans hb.symm)⟩
  | @newer le re hl hre _ hlb =>
    rw [Decision.entry, Option.some.injEq] at h
    split at h
    · subst h
      exact absurd hre hr
    · subst h
      exact ⟨hl, fun hb => hlb (hl.trans hb.symm)⟩
  | localLoses _ hre => exact absurd (hre.trans h) hr
  | remoteLoses hl _ _ hlb =>
    rw [Decision.entry, Option.some.injEq] at h
    subst h
    exact ⟨hl, fun hb => hlb (hl.trans hb.symm)⟩

/-- A synced conflict copy is not below `.git`. -/
theorem CopyOf.not_git {device stamp : Text} {x : ConflictCopy}
    (h : CopyOf base a remote device stamp x) (hl : x.localOnly = false) :
    isGitPath x.copyPath = false := by
  obtain ⟨n, hn⟩ := h.candidate
  have hplace := h.place
  rw [hl, if_neg Bool.false_ne_true] at hplace
  rw [hplace, hn, ← Bool.not_eq_true]
  intro hg
  have hpath := h.git.symm.trans hl
  rw [isGitPath_of_candidate hg] at hpath
  cases hpath

/-- What a placed tree has besides the merge is a change since the scan. -/
theorem Own.bringTo {t : FileMap} (h : Own wrote t captured) (merged : FileMap) :
    Own wrote (bringTo t captured merged) merged := by
  intro p e hp ht hm
  rw [bringTo_get] at ht
  split at ht
  · rename_i heq
    exact h p e hp ht (heq ▸ hm)
  · exact absurd ht hm

/-- What a merge has besides the remote is a change of the captured tree. -/
theorem MergeResult.own {device stamp : Text} {out : MergeOutcome}
    (h : MergeResult base captured remote device stamp out.merged.files out.conflicts)
    (hb : Own wrote captured base) : Own wrote out.merged.files remote := by
  intro p e hp hm hr
  rw [h.decided p fun x hx hl hxp => ?_] at hm
  · obtain ⟨hl, hne⟩ := decidePath_own hm hr
    exact hb p e hp hl hne
  · rw [← hxp, (h.copyOf x hx).not_git hl] at hp
    cases hp

/-- When there is nothing to apply, a placed tree is the tree as far as `.git` goes. -/
theorem MergeResult.own_of_diff {device stamp : Text} {out : MergeOutcome} {t : FileMap}
    (h : MergeResult base captured remote device stamp out.merged.files out.conflicts)
    (hd : diff (onDisk captured out.conflicts) out.merged.files = {}) (ht : Own wrote t c) :
    Own wrote (bringTo t captured out.merged.files) c := by
  intro p e hp hbt hc
  have hfree : ∀ x ∈ out.conflicts, x.localOnly = false → x.copyPath ≠ p := fun x hx hl hxp => by
    rw [← hxp, (h.copyOf x hx).not_git hl] at hp
    cases hp
  have hsame : out.merged.files[p]? = captured[p]? := by
    rw [← eq_of_diff_eq hd, onDisk_get_of_input _ _ hfree]
  rw [bringTo_get, if_pos hsame] at hbt
  exact ht p e hp hbt hc

/-- Writing more changes nothing for a device either. -/
theorem OwnInv.mono (h : OwnInv wrote m) (hsub : wrote ⊆ wrote') : OwnInv wrote' m :=
  ⟨h.recorded.mono hsub, fun b hp => (h.attempt b hp).mono hsub,
    fun b q r hp => (h.fetched b q r hp).mono hsub,
    fun b q r c hp => ⟨(h.scanned b q r c hp).1.mono hsub, (h.scanned b q r c hp).2.mono hsub⟩,
    fun b q r c o hp => ⟨(h.placed b q r c o hp).1.mono hsub, (h.placed b q r c o hp).2.mono hsub⟩⟩

theorem OwnInv.of_idle (hp : m.phase = .idle) (h : Own wrote m.tree m.recorded) :
    OwnInv wrote m := by
  constructor <;> simp [hp, h]

theorem OwnInv.of_attempt (hp : m.phase = .attempt base) (h : Own wrote m.tree m.recorded)
    (hbase : Own wrote m.tree base) : OwnInv wrote m := by
  constructor <;> simp [hp, h, hbase]

theorem OwnInv.of_fetched {seq : Nat} (hp : m.phase = .fetched base seq remote)
    (h : Own wrote m.tree m.recorded) (hbase : Own wrote m.tree base) : OwnInv wrote m := by
  constructor <;> simp [hp, h, hbase]

theorem OwnInv.of_scanned {seq : Nat} (hp : m.phase = .scanned base seq remote captured)
    (h : Own wrote m.tree m.recorded) (hbase : Own wrote captured base)
    (hcap : Own wrote m.tree captured) : OwnInv wrote m := by
  refine ⟨h, by simp [hp], by simp [hp], fun b q r c hb => ?_, by simp [hp]⟩
  rw [hp] at hb
  cases hb
  exact ⟨hbase, hcap⟩

theorem OwnInv.of_placed {seq : Nat} {out : MergeOutcome}
    (hp : m.phase = .placed base seq remote captured out) (h : Own wrote m.tree m.recorded)
    (hremote : Own wrote m.tree remote) (hmerged : Own wrote m.tree out.merged.files) :
    OwnInv wrote m := by
  refine ⟨h, by simp [hp], by simp [hp], by simp [hp], fun b q r c o hb => ?_⟩
  rw [hp] at hb
  cases hb
  exact ⟨hremote, hmerged⟩

/-- **A step keeps a device's changes its own.** -/
theorem OwnInv.step {D : Type} {d : D} {name : Text} {log log' : List (Publication D)} {m' : Member}
    {e : FleetEvent} (h : OwnInv wrote m) (hs : m.step d name log e = some (m', log'))
    (hsub : wrote ⊆ wrote') (hnew : ∀ p x, e = .edit p (some x) → (p, x) ∈ wrote') :
    OwnInv wrote' m' := by
  cases e with
  | edit p e =>
    cases hs
    have hedit : ∀ {x : FileMap}, Own wrote m.tree x → Own wrote' (m.edit p e).tree x :=
      fun hx => hx.edit p e hsub fun x hx => hnew p x (by rw [hx])
    exact ⟨hedit h.recorded, fun b hp => hedit (h.attempt b hp),
      fun b q r hp => hedit (h.fetched b q r hp),
      fun b q r c hp => ⟨(h.scanned b q r c hp).1.mono hsub, hedit (h.scanned b q r c hp).2⟩,
      fun b q r c o hp => ⟨hedit (h.placed b q r c o hp).1, hedit (h.placed b q r c o hp).2⟩⟩
  | begin =>
    cases hp : m.phase with
    | idle =>
      simp only [Member.step, hp] at hs
      cases hs
      exact .of_attempt rfl (h.recorded.mono hsub) (h.recorded.mono hsub)
    | attempt | fetched | scanned | placed => simp [Member.step, hp] at hs
  | fetch =>
    cases hp : m.phase with
    | attempt base =>
      simp only [Member.step, hp] at hs
      cases hs
      exact .of_fetched rfl (h.recorded.mono hsub) ((h.attempt base hp).mono hsub)
    | idle | fetched | scanned | placed => simp [Member.step, hp] at hs
  | scan =>
    cases hp : m.phase with
    | fetched base seq remote =>
      simp only [Member.step, hp] at hs
      cases hs
      exact .of_scanned rfl (h.recorded.mono hsub) ((h.fetched base seq remote hp).mono hsub)
        (.refl _)
    | idle | attempt | scanned | placed => simp [Member.step, hp] at hs
  | place stamp =>
    cases hp : m.phase with
    | scanned base seq remote captured =>
      simp only [Member.step, hp, Option.ite_none_right_eq_some] at hs
      obtain ⟨-, hs⟩ := hs
      cases hs
      obtain ⟨hcap, htree⟩ := h.scanned base seq remote captured hp
      have hres := merge_result (.ofFiles base) (.ofFiles captured) (.ofFiles remote) name stamp
      have hmerged := htree.bringTo (mergeFiles base captured remote name stamp).merged.files
      have hremote := hmerged.trans (MergeResult.own hres hcap)
      refine .of_placed rfl ?_ (hremote.mono hsub) (hmerged.mono hsub)
      dsimp only [recordedAfter]
      split
      · rename_i hd
        exact (MergeResult.own_of_diff hres hd h.recorded).mono hsub
      · exact hremote.mono hsub
    | idle | attempt | fetched | placed => simp [Member.step, hp] at hs
  | publish =>
    cases hp : m.phase with
    | placed base seq remote captured out =>
      obtain ⟨hremote, hmerged⟩ := h.placed base seq remote captured out hp
      simp only [Member.step, hp] at hs
      split at hs
      · cases hs
        exact .of_idle rfl (hmerged.mono hsub)
      · split at hs
        · cases hs
          exact .of_idle rfl (hmerged.mono hsub)
        · cases hs
          exact .of_attempt rfl (h.recorded.mono hsub) (hremote.mono hsub)
    | idle | attempt | fetched | scanned => simp [Member.step, hp] at hs
  | fail =>
    cases hp : m.phase with
    | idle => simp [Member.step, hp] at hs
    | attempt | fetched | scanned | placed =>
      simp only [Member.step, hp] at hs
      cases hs
      exact .of_idle rfl (h.recorded.mono hsub)

end

/-! ## What is below `.pear/conflicts` -/

section
variable {m m' : Member} {new : List ConflictCopy} {x : ConflictCopy}

/-- New copies replace the older ones of their names. -/
theorem Member.aside_append (h : m'.kept = m.kept ++ new) (n : Text) : m'.aside n =
    ((new.filter (·.copyPath = n)).getLast?.map (·.entry.chunks)).or (m.aside n) := by
  unfold aside
  rw [h, List.filter_append, List.getLast?_append]
  cases (new.filter (·.copyPath = n)).getLast? <;> rfl

/-- A new copy is there when no other new one has its name. -/
theorem Member.aside_new (h : m'.kept = m.kept ++ new) (hx : x ∈ new)
    (honly : ∀ y ∈ new, y.copyPath = x.copyPath → y = x) :
    m'.aside x.copyPath = some x.entry.chunks := by
  rw [aside_append h]
  cases hlast : (new.filter (·.copyPath = x.copyPath)).getLast? with
  | none =>
    have hnil := List.getLast?_eq_none_iff.mp hlast
    have hmem : x ∈ new.filter (·.copyPath = x.copyPath) := List.mem_filter.mpr ⟨hx, by simp⟩
    rw [hnil] at hmem
    cases hmem
  | some y =>
    obtain ⟨hy, hpath⟩ := List.mem_filter.mp (List.mem_of_getLast? hlast)
    obtain rfl := honly y hy (of_decide_eq_true hpath)
    rfl

/-- An older copy is still there when new ones of its name have its bytes. -/
theorem Member.aside_old (h : m'.kept = m.kept ++ new) {n : Text} {bytes : List Text}
    (hold : m.aside n = some bytes)
    (hsame : ∀ y ∈ new, y.copyPath = n → ∀ k ∈ m.kept, k.copyPath = n →
      k.entry.chunks = y.entry.chunks) :
    m'.aside n = some bytes := by
  rw [aside_append h]
  cases hlast : (new.filter (·.copyPath = n)).getLast? with
  | none => exact hold
  | some y =>
    obtain ⟨hy, hpath⟩ := List.mem_filter.mp (List.mem_of_getLast? hlast)
    obtain ⟨k, hk, hbytes⟩ := Option.map_eq_some_iff.mp hold
    obtain ⟨hk, hkpath⟩ := List.mem_filter.mp (List.mem_of_getLast? hk)
    have := hsame y hy (of_decide_eq_true hpath) k hk (of_decide_eq_true hkpath)
    exact congrArg some (this.symm.trans hbytes)

/-- Only a placed merge makes copies. -/
theorem Member.step_kept {D : Type} {d : D} {name : Text} {log log' : List (Publication D)}
    {e : FleetEvent} (hs : m.step d name log e = some (m', log')) :
    ((∀ stamp, e ≠ .place stamp) ∧ m'.kept = m.kept) ∨
      ∃ stamp base seq remote captured, e = .place stamp ∧
        m.phase = .scanned base seq remote captured ∧
        m' = m.placeAt base seq remote captured (mergeFiles base captured remote name stamp) := by
  cases e with
  | place stamp =>
    cases hp : m.phase with
    | scanned base seq remote captured =>
      simp only [step, hp, Option.ite_none_right_eq_some] at hs
      obtain ⟨-, hs⟩ := hs
      cases hs
      exact .inr ⟨stamp, base, seq, remote, captured, rfl, rfl, rfl⟩
    | idle | attempt | fetched | placed => simp [step, hp] at hs
  | edit p e =>
    cases hs
    exact .inl ⟨fun _ he => (by cases he), rfl⟩
  | begin | fetch | scan | fail =>
    refine .inl ⟨fun _ he => (by cases he), ?_⟩
    cases hp : m.phase <;> simp only [step, hp, reduceCtorEq] at hs <;> cases hs <;> rfl
  | publish =>
    refine .inl ⟨fun _ he => (by cases he), ?_⟩
    cases hp : m.phase with
    | placed base seq remote captured out =>
      simp only [step, hp] at hs
      split at hs
      · cases hs
        rfl
      · split at hs <;> cases hs <;> rfl
    | idle | attempt | fetched | scanned => simp [step, hp] at hs

end

/-! ## Every loser is kept by its writer -/

/-- What holds of every ledger: devices change what they write, and every version that lost was
written by the device that made its copy, which has its bytes on disk. -/
structure LedgerInv {D : Type} (s : Ledger D) : Prop where
  own : ∀ d, OwnInv (s.wrote d) (s.fleet.member d)
  lost : ∀ x ∈ s.lost, x.2.side = .localSide ∧ (x.2.path, x.2.entry) ∈ s.wrote x.1 ∧
    (s.fleet.member x.1).aside x.2.copyPath = some x.2.entry.chunks

section
variable {D : Type} [DecidableEq D] {name : D → Text} {s s' : Ledger D} {e : D × FleetEvent}

/-- The record of what was written grows, by the edits. -/
theorem Ledger.wrote_step (h : s.step name e = some s') :
    (∀ d, s.wrote d ⊆ s'.wrote d) ∧
      ∀ p x, e.2 = .edit p (some x) → (p, x) ∈ s'.wrote e.1 := by
  obtain ⟨d, ev⟩ := e
  obtain ⟨fleet, -, rfl⟩ := Option.map_eq_some_iff.mp h
  cases ev with
  | edit p x =>
    cases x with
    | none => exact ⟨fun _ => List.Subset.refl _, nofun⟩
    | some x =>
      refine ⟨fun d' => ?_, fun q y hy => ?_⟩
      · dsimp only
        by_cases hd : d' = d
        · subst hd
          rw [Function.update_self]
          exact List.subset_cons_self _ _
        · rw [Function.update_of_ne hd]
          exact List.Subset.refl _
      · cases hy
        simp
  | begin | fetch | scan | place | publish | fail => exact ⟨fun _ => List.Subset.refl _, nofun⟩

/-- **A step that keeps devices to their own losers keeps the invariant.** -/
theorem LedgerInv.step (h : LedgerInv s) (hc : s.KeepsOwn name e) (hs : s.step name e = some s') :
    LedgerInv s' := by
  obtain ⟨hsub, hnew⟩ := Ledger.wrote_step hs
  obtain ⟨d, ev⟩ := e
  obtain ⟨fleet, hf, rfl⟩ := Option.map_eq_some_iff.mp hs
  obtain ⟨hmem, hothers⟩ := Fleet.step_eq hf
  refine ⟨fun d' => ?_, ?_⟩
  · by_cases hd : d' = d
    · subst hd
      exact (h.own d').step hmem (hsub d') hnew
    · rw [hothers d' hd]
      exact (h.own d').mono (hsub d')
  · have hold : ∀ x ∈ s.lost, x.2.side = .localSide ∧
        (x.2.path, x.2.entry) ∈ _ ∧ _ := fun x hx =>
      ⟨(h.lost x hx).1, hsub x.1 (h.lost x hx).2.1, (h.lost x hx).2.2⟩
    rcases Member.step_kept hmem with ⟨hev, hkept⟩ | ⟨stamp, base, seq, remote, captured, rfl, hp, hm'⟩
    · -- No copy is made: the record and the disks are as they were.
      have haside : ∀ d', (fleet.member d').aside = (s.fleet.member d').aside := fun d' => by
        by_cases hd : d' = d
        · subst hd
          unfold Member.aside
          rw [hkept]
        · rw [hothers d' hd]
      cases ev with
      | place stamp => exact absurd rfl (hev stamp)
      | edit | begin | fetch | scan | publish | fail =>
        intro x hx
        dsimp only
        rw [haside]
        exact hold x hx
    · have hres : MergeResult base captured remote (sanitizeDevice (name d)) stamp _ _ :=
        merge_result (.ofFiles base) (.ofFiles captured) (.ofFiles remote) (name d) stamp
      have hown := ((h.own d).scanned base seq remote captured hp).1
      have hcond := hc base seq remote captured hp
      change MergeResult base captured remote (sanitizeDevice (name d)) stamp
        (mergeFiles base captured remote (name d) stamp).merged.files
        (mergeFiles base captured remote (name d) stamp).conflicts at hres
      generalize mergeFiles base captured remote (name d) stamp = out at hres hm'
      have hkept : (fleet.member d).kept =
          (s.fleet.member d).kept ++ out.conflicts.filter (·.localOnly) := by
        rw [hm']
        rfl
      -- What a copy made here is: a loser of this device's own, which stays what it was.
      have hcopy : ∀ y ∈ out.conflicts, y.localOnly = true →
          y.side = .localSide ∧ (y.path, y.entry) ∈ s.wrote d ∧
            ∀ k ∈ (s.fleet.member d).kept, k.copyPath = y.copyPath →
              k.entry.chunks = y.entry.chunks := by
        intro y hy hl
        have hof := hres.copyOf y hy
        have hgit := hof.git.symm.trans hl
        obtain ⟨hside, hbytes⟩ := hcond y.path hgit y.side y.entry hof.lost
        obtain ⟨le, re, hcap, -, hbase, -, -, hcase⟩ := decidePath_loser hof.lost
        refine ⟨hside, ?_, fun k hk hkp => ?_⟩
        · rcases hcase with ⟨-, he, -⟩ | ⟨hs, -⟩
          · refine hown y.path y.entry hgit (he ▸ hcap) fun hb => hbase ?_
            rw [hcap, ← he, hb]
          · rw [hside] at hs
            cases hs
        · obtain ⟨n, hn⟩ := hof.candidate
          have hplace := hof.place
          rw [hl, if_pos rfl, hn, hside] at hplace
          exact hbytes n k hk (hkp.trans hplace)
      intro x hx
      have hx : x ∈ (out.conflicts.filter (·.localOnly)).map ((d, ·)) ++ s.lost := by
        have hphase : (fleet.member d).phase = .placed base seq remote captured out := by
          rw [hm']
          rfl
        simpa only [hphase] using hx
      rcases List.mem_append.mp hx with hx | hx
      · obtain ⟨y, hy, rfl⟩ := List.mem_map.mp hx
        obtain ⟨hyc, hl⟩ := List.mem_filter.mp hy
        obtain ⟨hside, hwrote, -⟩ := hcopy y hyc hl
        refine ⟨hside, hsub d hwrote, Member.aside_new hkept hy fun z hz hzp => ?_⟩
        obtain ⟨hzc, hzl⟩ := List.mem_filter.mp hz
        exact hres.eq_of_copyPath hzc hyc (hzl.trans hl.symm) hzp
      · obtain ⟨hside, hwrote, haside⟩ := hold x hx
        refine ⟨hside, hwrote, ?_⟩
        by_cases hd : x.1 = d
        · rw [hd] at haside ⊢
          refine Member.aside_old hkept haside fun y hy hyp k hk hkp => ?_
          obtain ⟨hyc, hl⟩ := List.mem_filter.mp hy
          exact (hcopy y hyc hl).2.2 k hk (hkp.trans hyp.symm)
        · rw [hothers x.1 hd]
          exact haside

end

/-- **A device keeps its own losing side.** In any run of any number of devices in which every merge
keeps its device to its own losers, each version that lost below `.git` was written by a device, and
every device that wrote it, other than by giving its file the same entry as the merging device,
has its bytes below its own `.pear/conflicts`. -/
theorem losers_keep_their_version {D : Type} [DecidableEq D] {name : D → Text} {tree : D → FileMap}
    {es : List (D × FleetEvent)} {s : Ledger D}
    (run : Lib.Run (Ledger.step name) (Ledger.KeepsOwn name) (.fresh tree) es s) :
    ∀ x ∈ s.lost, s.Loser x.1 x ∧ ∀ d, s.Loser d x →
      (s.fleet.member d).aside x.2.copyPath = some x.2.entry.chunks := by
  have hfresh : LedgerInv (Ledger.fresh tree) := by
    refine ⟨fun d => ⟨fun p e _ ht _ => ?_, nofun, nofun, nofun, nofun⟩, nofun⟩
    exact Std.ExtTreeMap.mem_toList_iff_getElem?_eq_some.mpr ht
  have hinv : LedgerInv s := run.invariant (fun _ _ _ hi hc hs => hi.step hc hs) hfresh
  intro x hx
  obtain ⟨hside, hwrote, haside⟩ := hinv.lost x hx
  refine ⟨⟨hwrote, fun _ => rfl⟩, fun d hd => ?_⟩
  rw [hd.2 hside]
  exact haside

/-- `KeepsOwn` as a check, for a device without older copies. -/
def Ledger.keepsOwn {D : Type} (s : Ledger D) : D × FleetEvent → Bool
  | (d, .place _) => match (s.fleet.member d).phase with
    | .scanned base _ remote captured => (s.fleet.member d).kept.isEmpty &&
        captured.keys.all fun p => match (decideAt base captured remote p).loser with
          | some (.remoteSide, _) => false
          | _ => true
    | _ => true
  | _ => true

/-- What passes the check keeps a device to its own losers. -/
theorem Ledger.keepsOwn_of_check {D : Type} {name : D → Text} (s : Ledger D) (e : D × FleetEvent)
    (h : s.keepsOwn e = true) : s.KeepsOwn name e := by
  obtain ⟨d, ev⟩ := e
  cases ev with
  | place stamp =>
    intro base seq remote captured hp p _ side x hlost
    simp only [keepsOwn, hp, Bool.and_eq_true, List.isEmpty_iff, List.all_eq_true] at h
    obtain ⟨hkept, hall⟩ := h
    obtain ⟨le, re, hcap, -⟩ := decidePath_loser hlost
    have hside := hall p (Lib.mem_keys_iff.mpr (by simp [hcap]))
    rw [hlost] at hside
    cases side with
    | remoteSide => cases hside
    | localSide => exact ⟨rfl, fun n k hk => by rw [hkept] at hk; cases hk⟩
  | edit | begin | fetch | scan | publish | fail => trivial

/-- Two devices with different versions of a ref, and the first one's publication. -/
def testRefs (mtime : Bool → Int) (d : Bool) : FileMap :=
  (testManifest [(".git/r".toList, testEntry (if d then 1 else 2) (mtime d))]).files

/-- A converge without a lost race. -/
def testConverge (d : Bool) : List (Bool × FleetEvent) :=
  [(d, .begin), (d, .fetch), (d, .scan), (d, .place (conflictStamp 0)), (d, .publish)]

/-- The second device's version is the older one: it loses in its own merge, and is kept there. -/
theorem losers_keep_their_version_one : ∃ s : Ledger Bool,
    s.lost.map (fun x => (x.1, x.2.path, x.2.entry)) =
      [(false, ".git/r".toList, testEntry 2 20)] ∧
    ∀ x ∈ s.lost, s.Loser x.1 x ∧ ∀ d, s.Loser d x →
      (s.fleet.member d).aside x.2.copyPath = some x.2.entry.chunks := by
  have hrun : ((Lib.replay (fun s e => if Ledger.keepsOwn s e then
      Ledger.step (fun d : Bool => if d then "a".toList else "b".toList) s e else none)
      (.fresh (testRefs fun d => if d then 30 else 20)) (testConverge true ++ testConverge false)).map
      fun s => s.lost.map fun x => (x.1, x.2.path, x.2.entry)) =
      some [(false, ".git/r".toList, testEntry 2 20)] := by
    decide
  obtain ⟨s, hs, hlost⟩ := Option.map_eq_some_iff.mp hrun
  exact ⟨s, hlost, losers_keep_their_version (.of_replay_if Ledger.keepsOwn_of_check hs)⟩

/-- The second device's version is the newer one: the published version of the first one loses, and
when both are in step with the head, the first device has nothing below `.pear/conflicts`. -/
theorem published_loser_kept_elsewhere : ∃ s : Ledger Bool,
    Lib.Run (Ledger.step fun d : Bool => if d then "a".toList else "b".toList) (fun _ _ => True)
      (.fresh (testRefs fun d => if d then 10 else 20))
      (testConverge true ++ testConverge false ++ testConverge true) s ∧
    (∀ d, (s.fleet.member d).tree = headOf s.fleet.log) ∧
    ∃ x ∈ s.lost, s.Loser true x ∧ x.1 = false ∧ (s.fleet.member true).kept = [] := by
  have hrun : ((Lib.replay (Ledger.step fun d : Bool => if d then "a".toList else "b".toList)
      (.fresh (testRefs fun d => if d then 10 else 20))
      (testConverge true ++ testConverge false ++ testConverge true)).map fun s =>
      (s.fleet.member true).tree = headOf s.fleet.log &&
      (s.fleet.member false).tree = headOf s.fleet.log && (s.fleet.member true).kept.isEmpty &&
      s.lost.any fun x => !x.1 && decide (x.2.side = .remoteSide) &&
        decide ((x.2.path, x.2.entry) ∈ s.wrote true)) = some true := by
    decide
  obtain ⟨s, hs, hfacts⟩ := Option.map_eq_some_iff.mp hrun
  simp only [Bool.and_eq_true, decide_eq_true_eq, List.isEmpty_iff, List.any_eq_true,
    Bool.not_eq_true'] at hfacts
  obtain ⟨⟨⟨htrue, hfalse⟩, hkept⟩, x, hx, ⟨hdev, hside⟩, hwrote⟩ := hfacts
  refine ⟨s, Lib.Run.of_replay (fun _ _ _ => trivial) hs, fun d => ?_, x, hx,
    ⟨hwrote, fun hl => ?_⟩, hdev, hkept⟩
  · cases d with
    | true => exact htrue
    | false => exact hfalse
  · rw [hside] at hl
    cases hl

end Pear
