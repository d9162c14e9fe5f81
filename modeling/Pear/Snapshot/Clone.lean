import Pear.Snapshot

/-!
# What a clone leaves

How every run of `clone` ends (`wpe_clone`), assembled from one specification for each of its parts. The
refusals leave everything as it is. What comes after them happens in a directory that was empty or not
there, provided that listing the target cannot fail: the initialization and the recording of the origin
act in `.pear` alone (`within_pear`), the apply turns what is outside into the files of the manifest
(`within_applyCommit`), and the cleanup leaves nothing.
-/

namespace Pear

open Lib (Errno Node Attr Content wpe)

/-! ## Trees without links -/

/-- There is no link. -/
def Linkless (t : Tree) : Prop := ∀ l target, t.content l ≠ some (.link target)

section
variable {t t' : Tree} {l d : Loc} {e : DiskEffect} {source : Text → Option Bytes} {now : Int × Int}
  {α β : Type}

theorem Linkless.plain (h : Linkless t) (l : Loc) : t.Plain l := fun d _ => h d

theorem Linkless.mono (h : Linkless t) (hlinks : NoNewLinks t t') : Linkless t' :=
  fun l target hl => h l target (hlinks l target hl)

/-- A tree with nothing in it has no link. -/
theorem linkless_of_empty (h : ∀ l : Loc, t.nodes[l]? = none) : Linkless t := fun l target hl => by
  rw [Lib.FileTree.content_of_none (h l)] at hl
  cases hl

/-- What is above a place of `.pear`, the root apart, is of `.pear` too. -/
theorem pearLoc_prefix_above (hd : d <+: l) (hne : d ≠ []) (h : pearLoc <+: l) : pearLoc <+: d := by
  obtain ⟨c, d, rfl⟩ := List.exists_cons_of_ne_nil hne
  obtain ⟨r, rfl⟩ := hd
  obtain ⟨rfl, -⟩ := List.cons_prefix_cons.mp h
  exact ⟨d, rfl⟩

/-- A call that acts in `.pear` alone, whatever the tree. -/
def DiskOp.ActsInPear : DiskOp → Prop
  | .effect e => ∀ t, ∀ a ∈ e.acts t, pearLoc <+: a.2
  | _ => True

theorem actsInPear_mkdirAll (h : pearLoc <+: l) : (DiskOp.effect (.mkdirAll l)).ActsInPear := by
  intro t a ha
  obtain ⟨d, hd, rfl⟩ := List.mem_map.mp ha
  obtain ⟨hmem, hdir⟩ := List.mem_filter.mp hd
  refine pearLoc_prefix_above ((List.mem_inits _ _).mp hmem) ?_ h
  rintro rfl
  simp [Lib.FileTree.isDir] at hdir

/-- A call that acts at one place of `.pear`. -/
theorem actsInPear_at {follow : Bool} (hacts : ∀ t, e.acts t = [(follow, l)]) (h : pearLoc <+: l) :
    (DiskOp.effect e).ActsInPear := by
  intro t a ha
  rw [hacts] at ha
  rw [List.mem_singleton.mp ha]
  exact h

/-- A program that acts in `.pear` alone. -/
def InPear (p : DiskProg α) : Prop := p.Safe DiskOp.ActsInPear fun _ => True

theorem InPear.bind {p : DiskProg α} {f : α → DiskProg β} (h : InPear p) (hf : ∀ a, InPear (f a)) :
    InPear (p >>= f) := Lib.Prog.Safe.bind (Lib.Prog.Safe.mono h fun a _ => hf a)

theorem inPear_must (h : (DiskOp.effect e).ActsInPear) : InPear (must e) := by
  refine ⟨h, fun r => ?_⟩
  cases r <;> trivial

theorem inPear_ignore (h : (DiskOp.effect e).ActsInPear) : InPear (ignore e) := ⟨h, fun _ => trivial⟩

/-- A file of `.pear` is written. -/
theorem inPear_writeFileAtomic {tmp path : Loc} {data : Bytes} (htmp : pearLoc <+: tmp)
    (hpath : pearLoc <+: path) : InPear (writeFileAtomic tmp path data) := by
  refine (inPear_must (actsInPear_at (fun _ => rfl) htmp)).bind fun _ => ?_
  refine (inPear_must (actsInPear_at (fun _ => rfl) htmp)).bind fun _ => ?_
  refine (inPear_must fun t a ha => by cases ha).bind fun _ => ?_
  refine (inPear_must fun t a ha => ?_).bind fun _ => inPear_ignore fun t a ha => by cases ha
  rcases List.mem_cons.mp ha with rfl | ha
  · exact htmp
  · rw [List.mem_singleton.mp ha]
    exact hpath

/-- The tree is the same outside `.pear`. -/
def SameOutside (t t' : Tree) : Prop := ∀ x, ¬ pearLoc <+: x → t'.nodes[x]? = t.nodes[x]?

/-- A call in `.pear` changes nothing outside and makes no link. -/
theorem actsInPear_call (h : (DiskOp.effect e).ActsInPear) (hlinks : Linkless t) :
    e.Confined now (pearLoc <+: ·) t ∧ Linkless (e.run now t).2 ∧
      ∀ f, Linkless (e.partialRun now f t) := by
  refine ⟨DiskEffect.confined fun a ha => ⟨?_, h t a ha⟩,
    hlinks.mono (DiskEffect.noNewLinks_run fun src _ _ => hlinks.plain src),
    fun f => hlinks.mono (DiskEffect.noNewLinks_partialRun f)⟩
  split
  · exact hlinks.plain a.2
  · exact (hlinks.plain a.2).real

/-- **A program that acts in `.pear` alone** changes nothing outside and makes no link. -/
theorem within_pear {p : DiskProg α} (hp : InPear p) (hlinks : Linkless t) :
    Within source now (pearLoc <+: ·) (fun _ t' => Linkless t' ∧ SameOutside t t') p t := by
  induction p generalizing t with
  | done a =>
    rintro _ rfl
    exact ⟨hlinks, fun _ _ => rfl⟩
  | fail e => trivial
  | call op k ih =>
    rintro _ rfl - out hout
    have hnext : ∀ {r : op.Ret} {t' : Tree}, Linkless t' → SameOutside t t' →
        Within source now (pearLoc <+: ·) (fun _ t'' => Linkless t'' ∧ SameOutside t t'') (k r) t' :=
      fun hl hs => Lib.wp_mono (ih _ (hp.2 _) hl) fun _ t'' h =>
        ⟨h.1, fun x hx => (h.2 x hx).trans (hs x hx)⟩
    cases op with
    | effect e =>
      obtain ⟨hconf, hrun, hpart⟩ := actsInPear_call hp.1 hlinks
      cases hout with
      | exec => exact ⟨hconf.run, hnext hrun hconf.run⟩
      | fault f => exact ⟨hconf.partialRun f, hnext (hpart f) (hconf.partialRun f)⟩
    | lstat | readDir | getChunk =>
      cases hout with
      | exec | fault => exact ⟨fun _ _ => rfl, hnext hlinks fun _ _ => rfl⟩

/-- A program that keeps to a region. -/
theorem within_weaken {R : Loc → Prop} {Q : α → Tree → Prop} {p : DiskProg α}
    (h : Within source now R Q p t) : Within source now (fun _ => True) Q p t :=
  Lib.wp_mono (Lib.wp_invariant (C := regionContract R) (I := fun _ => True) (fun _ _ _ _ => trivial)
    (fun _ _ hr _ => ⟨hr, trivial⟩) (fun _ _ _ _ _ _ => ⟨trivial, fun _ hx => absurd trivial hx⟩) h
    trivial) fun _ _ hQ => hQ.1

/-- **A successful apply turns the old tree into the new one**, and makes no link. -/
theorem within_applyCommit {lower tag : Text → Text} {encode : Manifest → Bytes}
    {old new commit : Manifest}
    (hdots : ∀ p : Text, old.files[p]? ≠ none ∨ new.files[p]? ≠ none → ¬ HasDot p)
    (hholds : HoldsFiles old.files t)
    (hfree : ∀ (l : Loc) (p : Text), Unrelated old.files t l → new.files[p]? ≠ none → l ≠ loc p)
    (hlinks : Unlinked (applyPlaces tag (writtenPaths old.files new.files)) t) :
    Within source now (fun _ => True)
      (fun _ t' => TurnedInto source encode old new commit t t' ∧ NoNewLinks t t')
      (applyCommit lower tag encode old new commit) t := by
  rw [applyCommit_eq]
  refine Lib.wp_bind (Lib.wp_mono (within_weaken (within_applyWorktree hdots hlinks))
    fun _ t₁ hmid => ?_)
  obtain ⟨hkeys, hfirst⟩ := hmid
  refine Lib.wp_mono (within_weaken (within_applyGit hkeys (hlinks.mono hfirst.links)))
    fun _ t' hend => ?_
  obtain ⟨t₂, attr, hrest, hpointer⟩ := hend
  refine ⟨?_, (hfirst.links.trans hrest.links).trans hpointer.links⟩
  have hmem : ∀ (ps : List Text) (p : Text),
      p ∈ ps.filter (!isGitPath ·) ++ ps.filter (isGitPath ·) ↔ p ∈ ps := by
    intro ps p
    cases hgit : isGitPath p <;> simp [hgit]
  have hkey : ∀ part p, p ∈ (diff old.files new.files).deleted.filter part ++
      (writtenPaths old.files new.files).filter part →
      (old.files[p]? ≠ none ∨ new.files[p]? ≠ none) ∧ part p = true := by
    intro part p hp
    rcases List.mem_append.mp hp with hp | hp
    · exact ⟨.inl (mem_deleted.mp (List.mem_filter.mp hp).1).1, (List.mem_filter.mp hp).2⟩
    · exact ⟨.inr (mem_writes.mp (List.mem_filter.mp hp).1).1, (List.mem_filter.mp hp).2⟩
  refine Batch.turnedInto hkeys hholds hfree (fun p => (hmem _ p).trans mem_deleted)
    (fun p => (hmem _ p).trans mem_writes) (hfirst.trans hrest (fun p hp => ?_) fun p hp q hq => ?_)
    hpointer
  · exact (hkeys p (hkey _ p hp).1).1.outside
  · obtain ⟨hp, hgit⟩ := hkey _ p hp
    obtain ⟨hq, hgit'⟩ := hkey _ q hq
    refine hkeys.loc_ne hp hq ?_
    rintro rfl
    simp [hgit'] at hgit

end

/-! ## The host -/

section
variable {Key : Type} {E : CloneEnv Key} {key : ReadKey Key} {R : CloneRelay} {now : Int × Int}
  {fails : CloneOp → Bool} {w w₀ : CloneHost} {t : Tree} {op : CloneOp} {α : Type}

/-- There is no target, or nothing in it. -/
def CloneHost.Fresh (w : CloneHost) : Prop := ∀ t, w.target = some t → ∀ l : Loc, t.nodes[l]? = none

/-- What a call may do when the clone began at `w₀`: anything if the target was fresh, else nothing. -/
def CloneHost.Spares (w₀ : CloneHost) (_ : CloneOp) (w w' : CloneHost) : Prop := w' = w ∨ w₀.Fresh

/-- A call is done, or fails if it can. -/
theorem outcome_clone {out : op.Ret × CloneHost}
    (h : Lib.Outcome (cloneHost E key R now fails) op w out) :
    out = cloneExec E key R now op w ∨
      fails op = true ∧ ∃ f, out = cloneFault E key now f op w := by
  cases h with
  | exec => exact .inl rfl
  | fault f =>
    by_cases hf : fails op = true
    · exact .inr ⟨hf, f, if_pos hf⟩
    · exact .inl (if_neg hf)

variable {Q : Except CloneError α → CloneHost → Prop}

/-- A call and its answer. -/
theorem wpe_ask {Q : Except CloneError op.Ret → CloneHost → Prop}
    (h : ∀ out, Lib.Outcome (cloneHost E key R now fails) op w out →
      w₀.Spares op w out.2 ∧ Q (.ok out.1) out.2) :
    wpe (cloneHost E key R now fails) w₀.Spares Q (ask op) w :=
  Lib.wpe_call fun out hout => ⟨(h out hout).1, Lib.wpe_done (h out hout).2⟩

/-- A result. -/
theorem wpe_orFail {ε : Type} {wrap : ε → CloneError} {r : Except ε α}
    (hok : ∀ a, r = .ok a → Q (.ok a) w) (herror : ∀ e, r = .error e → Q (.error (wrap e)) w) :
    wpe (cloneHost E key R now fails) w₀.Spares Q (orFail wrap r) w := by
  cases r with
  | ok a => exact Lib.wpe_done (hok a rfl)
  | error e => exact Lib.wpe_fail (herror e rfl)

/-- **A program of the disk on the target** does what it does on the disk, over the store as it is. -/
theorem wpe_onTarget {wrap : DiskError → CloneError} {p : DiskProg α} {D : Loc → Prop}
    {P : α → Tree → Prop} (hfresh : w₀.Fresh) (ht : w.target = some t)
    (h : Within (chunkSource E.cipher key (storeGet E.cipher w.store)) now D P p t) :
    wpe (cloneHost E key R now fails) w₀.Spares
      (fun r w' => (∀ a, r = .ok a → ∃ t', w'.target = some t' ∧ w'.store = w.store ∧ P a t') ∧
        ∀ e, r = .error e → ∃ d, e = wrap d) (onTarget wrap p) w := by
  have htree : ∀ w' : CloneHost, ∀ t', w'.target = some t' → w'.target.getD emptyTree = t' :=
    fun w' t' h => by rw [h, Option.getD_some]
  have hinterp : Lib.wp (cloneHost E key R now fails) (.alone w₀.Spares) _
      (p.interp fun op => .call (.disk op) .done) w :=
    Lib.wp_interp (M := cloneDisk E key now w.store) (C := regionContract D) (Q := P)
      (f := fun w' => w'.target.getD emptyTree) (I := fun w' => ∃ t', w'.target = some t' ∧
        w'.store = w.store) (fun _ _ => trivial) ?_ (by rwa [htree w t ht]) ⟨t, ht, rfl⟩
  · refine Lib.wpe_bind (Lib.wpe_attempt (Lib.wpe_mono (Lib.wpe_of_wp hinterp) fun r w' hr => ?_))
    refine ⟨fun r' hr' => ?_, fun e he => by cases he⟩
    obtain rfl := Except.ok.inj hr'
    refine wpe_orFail (fun a ha => ⟨fun b hb => ?_, fun e he => by cases he⟩)
      fun e _ => ⟨fun b hb => (by cases hb), fun e' he' => ⟨e, (Except.error.inj he').symm⟩⟩
    cases hb
    obtain ⟨hP, t', ht', hstore⟩ := hr a ha
    rw [htree w' t' ht'] at hP
    exact ⟨t', ht', hstore, hP⟩
  · rintro op w' ⟨t', ht', hstore⟩ _ rfl - out hout
    refine ⟨.inr hfresh, ?_⟩
    rintro _ rfl
    rw [htree w' t' ht']
    rcases outcome_clone hout with rfl | ⟨-, f, rfl⟩
    · rw [cloneExec, ht', hstore]
      exact ⟨.exec, _, rfl, rfl⟩
    · rw [cloneFault, ht', hstore]
      exact ⟨.fault f.part, _, rfl, rfl⟩

/-! ## The refusals -/

variable {workspace : Text} {id : Nat}

/-- What is read of a workspace is there. -/
theorem not_fresh_of_readMeta {out : CloneOp.readMeta.Ret × CloneHost} {data : Bytes}
    (hout : Lib.Outcome (cloneHost E key R now fails) .readMeta w out) (hdata : out.1 = .ok data) :
    ¬ w.Fresh := by
  rcases outcome_clone hout with rfl | ⟨-, f, rfl⟩
  · intro hfresh
    cases ht : w.target with
    | none =>
      simp only [cloneExec, ht] at hdata
      cases hdata
    | some t =>
      simp only [cloneExec, ht] at hdata
      cases hread : t.read metaLoc with
      | error e =>
        rw [hread] at hdata
        cases hdata
      | ok r =>
        obtain ⟨x, hx⟩ := Lib.FileTree.exists_of_read hread
        exact hx (hfresh t ht x)
  · cases hdata

/-- `load_workspace` changes nothing, and finds a workspace only where something is. -/
theorem wpe_loadWorkspace {unreadable : Errno → CloneError} {bad : CloneError}
    {Q : Except CloneError (Option WorkspaceMeta) → CloneHost → Prop}
    (hok : ∀ ws, ws = none ∨ ¬ w.Fresh → Q (.ok ws) w)
    (herror : ∀ e, (∃ errno, e = unreadable errno) ∨ e = bad → Q (.error e) w) :
    wpe (cloneHost E key R now fails) w₀.Spares Q (loadWorkspace E unreadable bad) w := by
  unfold loadWorkspace
  refine Lib.wpe_bind (wpe_ask fun out hout => ?_)
  have hsame : out.2 = w := by
    rcases outcome_clone hout with rfl | ⟨-, f, rfl⟩ <;> rfl
  rw [hsame]
  refine ⟨.inl rfl, fun r hr => ?_, fun e he => by cases he⟩
  cases hr
  cases hanswer : out.1 with
  | ok data =>
    cases hdata : E.readMeta data with
    | none =>
      dsimp only
      rw [hdata]
      exact Lib.wpe_fail (herror _ (.inr rfl))
    | some ws =>
      dsimp only
      rw [hdata]
      exact Lib.wpe_done (hok _ (.inr (not_fresh_of_readMeta hout hanswer)))
  | error e =>
    cases e with
    | notFound => exact Lib.wpe_done (hok _ (.inl rfl))
    | notADirectory | isADirectory | directoryNotEmpty | tooManyLinks | alreadyExists | other =>
      exact Lib.wpe_fail (herror _ (.inl ⟨_, rfl⟩))

/-- The look for a workspace changes nothing. -/
theorem wpe_refuseWorkspace :
    wpe (cloneHost E key R now fails) w₀.Spares (fun _ w' => w' = w) (refuseWorkspace E) w := by
  unfold refuseWorkspace
  refine Lib.wpe_bind (wpe_loadWorkspace (fun ws _ => ⟨fun ws' hws' => ?_, fun e he => by cases he⟩)
    fun e he => ⟨fun ws hws => (by cases hws), fun e' he' => rfl⟩)
  cases hws'
  cases ws with
  | some ws => exact Lib.wpe_fail rfl
  | none => exact Lib.wpe_done rfl

/-- **A target that can be listed passes when it is fresh.** -/
theorem wpe_refuseFull (hlist : fails .listTarget = false) :
    wpe (cloneHost E key R now fails) w₀.Spares
      (fun r w' => w' = w ∧ ∀ a, r = .ok a → w.Fresh) refuseFull w := by
  unfold refuseFull
  refine Lib.wpe_bind (wpe_ask fun out hout => ?_)
  obtain rfl : out = cloneExec E key R now .listTarget w := by
    rcases outcome_clone hout with h | ⟨hf, -⟩
    · exact h
    · rw [hlist] at hf
      cases hf
  refine ⟨.inl rfl, fun r hr => ?_, fun e he => by cases he⟩
  obtain rfl := Except.ok.inj hr
  cases htarget : w.target with
  | none =>
    simp only [cloneExec, htarget]
    refine Lib.wpe_done ?_
    refine ⟨rfl, fun _ _ t ht => ?_⟩
    rw [htarget] at ht
    cases ht
  | some t =>
    obtain ⟨names, hnames, hmem⟩ := t.readDir_root
    simp only [cloneExec, htarget, hnames]
    cases names with
    | cons name names => exact Lib.wpe_fail ⟨rfl, fun _ h => by cases h⟩
    | nil =>
      refine Lib.wpe_done ?_
      refine ⟨rfl, fun _ _ t' ht' l => ?_⟩
      obtain rfl : t = t' := Option.some.inj (htarget.symm.trans ht')
      by_contra hne
      obtain ⟨n, -, hn⟩ := Lib.FileTree.exists_entry hne
      cases (hmem n).mpr hn

/-- **A clone that is admitted has a snapshot it may clone and a fresh target**, and until then nothing
has changed. -/
theorem wpe_admitClone (hlist : fails .listTarget = false) :
    wpe (cloneHost E key R now fails) w₀.Spares (fun r w' => w' = w ∧ ∀ a, r = .ok a →
      ∃ snapshot, R.snapshot id = .ok snapshot ∧
        openSnapshot E workspace id key snapshot = .ok a.1 ∧ a.2 = snapshot.info ∧ w.Fresh)
      (admitClone E workspace id key) w := by
  unfold admitClone
  refine Lib.wpe_bind (wpe_ask fun out hout => ?_)
  have hget : out.2 = w ∧ ∀ s, out.1 = .ok s → R.snapshot id = .ok s := by
    rcases outcome_clone hout with rfl | ⟨-, f, rfl⟩
    · exact ⟨rfl, fun s hs => hs⟩
    · exact ⟨rfl, fun s hs => by cases hs⟩
  rw [hget.1]
  refine ⟨.inl rfl, fun r hr => ?_, fun e he => by cases he⟩
  cases hr
  refine Lib.wpe_bind (wpe_orFail (fun s hs => ⟨fun s' hs' => ?_, fun e he => by cases he⟩)
    fun e he => ⟨fun s hs => (by cases hs), fun e' he' => ⟨rfl, fun a ha => by cases ha⟩⟩)
  cases hs'
  refine Lib.wpe_bind (wpe_orFail (fun wire hwire => ⟨fun wire' hwire' => ?_, fun e he => by cases he⟩)
    fun e he => ⟨fun s hs => (by cases hs), fun e' he' => ⟨rfl, fun a ha => by cases ha⟩⟩)
  cases hwire'
  refine Lib.wpe_bind (Lib.wpe_mono wpe_refuseWorkspace fun r w₁ hsame => ?_)
  subst hsame
  refine ⟨fun _ _ => ?_, fun e he => ⟨rfl, fun a ha => by cases ha⟩⟩
  refine Lib.wpe_bind (Lib.wpe_mono (wpe_refuseFull hlist) fun r w₂ hfull => ?_)
  obtain ⟨rfl, hfresh⟩ := hfull
  refine ⟨fun u hu => Lib.wpe_done ⟨rfl, fun a ha => ?_⟩, fun e he => ⟨rfl, fun a ha => by cases ha⟩⟩
  cases ha
  exact ⟨s, hget.2 s hs, hwire, rfl, hfresh u hu⟩

/-! ## The initialization -/

/-- The target is there, with nothing in it but `.pear`. -/
def CloneHost.Prepared (w : CloneHost) : Prop :=
  ∃ t, w.target = some t ∧ Linkless t ∧ ∀ x, ¬ pearLoc <+: x → t.nodes[x]? = none

/-- A program that acts in `.pear` alone leaves the target prepared. -/
theorem wpe_inPear {wrap : DiskError → CloneError} {p : DiskProg α} (hfresh : w₀.Fresh)
    (hp : InPear p) (h : w.Prepared) :
    wpe (cloneHost E key R now fails) w₀.Spares
      (fun r w' => (∀ a, r = .ok a → w'.Prepared) ∧ ∀ e, r = .error e → ∃ d, e = wrap d)
      (onTarget wrap p) w := by
  obtain ⟨t, ht, hlinks, hnone⟩ := h
  refine Lib.wpe_mono (wpe_onTarget hfresh ht (within_pear hp hlinks)) fun r w' hr => ⟨fun a ha => ?_, hr.2⟩
  obtain ⟨t', ht', -, hlinks', hsame⟩ := hr.1 a ha
  exact ⟨t', ht', hlinks', fun x hx => (hsame x hx).trans (hnone x hx)⟩

theorem inPear_dirs {d l : Loc} {p : DiskProg α} (hd : pearLoc <+: d) (hl : pearLoc <+: l)
    (hp : InPear p) : InPear (do must (.mkdirAll d); must (.setPrivateDir l); p) :=
  (inPear_must (actsInPear_mkdirAll hd)).bind fun _ =>
    (inPear_must (actsInPear_at (fun _ => rfl) hl)).bind fun _ => hp

/-- An empty target becomes a workspace with a fresh id. -/
theorem wpe_initWorkspace (hfresh : w₀.Fresh) (hw : w.Fresh) (hp : w.Prepared) :
    wpe (cloneHost E key R now fails) w₀.Spares (fun r w' =>
      (∀ ws, r = .ok ws → ws.id = E.newId ∧ w'.Prepared) ∧ ∀ e, r = .error e → e.Setup)
      (initWorkspace E) w := by
  unfold initWorkspace
  refine Lib.wpe_bind (wpe_loadWorkspace (fun ws hws => ⟨fun ws' hws' => ?_, fun e he => by cases he⟩)
    fun e he => ⟨fun ws hws => (by cases hws), fun e' he' => ⟨fun ws hws => (by cases hws), ?_⟩⟩)
  · cases hws'
    obtain rfl := hws.resolve_right (not_not_intro hw)
    have hinit : InPear (do
        must (.mkdirAll pearLoc)
        must (.setPrivateDir pearLoc)
        writeFileAtomic (pearLoc ++ ["workspace.tmp".toList]) metaLoc
          (E.writeMeta { id := E.newId, version := formatVersion })) :=
      inPear_dirs (List.prefix_refl _) (List.prefix_refl _)
        (inPear_writeFileAtomic ⟨_, rfl⟩ ⟨_, rfl⟩)
    refine Lib.wpe_bind (Lib.wpe_mono (wpe_inPear hfresh hinit hp) fun r w' hr =>
      ⟨fun a ha => Lib.wpe_done ⟨fun ws hws => ?_, fun e he => by cases he⟩,
        fun e he => ⟨fun ws hws => (by cases hws), fun e' he' => ?_⟩⟩)
    · cases hws
      exact ⟨rfl, hr.1 a ha⟩
    · obtain ⟨d, rfl⟩ := hr.2 e he
      cases he'
      trivial
  · rintro _ h
    cases he'
    cases h
    rcases he with ⟨errno, rfl⟩ | rfl <;> trivial

/-- The ring of an encrypted clone is cached in `.pear`. -/
theorem wpe_storeKeyring (hfresh : w₀.Fresh) (hp : w.Prepared) :
    wpe (cloneHost E key R now fails) w₀.Spares (fun r w' =>
      (∀ a, r = .ok a → w'.Prepared) ∧ ∀ e, r = .error e → e.Setup) (storeKeyring E key) w := by
  cases key with
  | none => exact Lib.wpe_done ⟨fun a _ => hp, fun e he => by cases he⟩
  | some r =>
    have hkeys : pearLoc <+: keysLoc := ⟨_, rfl⟩
    have hstore : InPear (do
        must (.mkdirAll pearLoc)
        must (.setPrivateDir pearLoc)
        must (.createPrivate keysLoc)
        must (.append keysLoc (E.writeKeyring r))
        must (.setMode keysLoc 0o600)
        ignore (.removeFile legacyKeyLoc)) :=
      inPear_dirs (List.prefix_refl _) (List.prefix_refl _)
        ((inPear_must (actsInPear_at (fun _ => rfl) hkeys)).bind fun _ =>
          (inPear_must (actsInPear_at (fun _ => rfl) hkeys)).bind fun _ =>
            (inPear_must (actsInPear_at (fun _ => rfl) hkeys)).bind fun _ =>
              inPear_ignore (actsInPear_at (fun _ => rfl) ⟨_, rfl⟩))
    refine Lib.wpe_mono (wpe_inPear hfresh hstore hp) fun r w' hr => ⟨hr.1, fun e he => ?_⟩
    obtain ⟨d, rfl⟩ := hr.2 e he
    trivial

/-- **What is set up is a workspace with a fresh id** in a target with nothing else, or the error says
that it is not. -/
theorem wpe_setUpClone (hfresh : w₀.Fresh) (hw : w.Fresh) :
    wpe (cloneHost E key R now fails) w₀.Spares (fun r w' =>
      (∀ ws, r = .ok ws → ws.id = E.newId ∧ w'.Prepared) ∧ ∀ e, r = .error e → e.Setup)
      (setUpClone E key) w := by
  unfold setUpClone
  refine Lib.wpe_bind (wpe_ask fun out hout => ⟨.inr hfresh, fun r hr => ?_, fun e he => by cases he⟩)
  cases hr
  refine Lib.wpe_bind (wpe_orFail (fun u hu => ⟨fun _ _ => ?_, fun e he => by cases he⟩)
    fun e he => ⟨fun u hu => (by cases hu), fun e' he' => ⟨fun ws hws => (by cases hws), ?_⟩⟩)
  swap
  · rintro _ h
    cases he'
    cases h
    trivial
  obtain ⟨t, ht, hempty⟩ : ∃ t, out.2.target = some t ∧ ∀ l : Loc, t.nodes[l]? = none := by
    rcases outcome_clone hout with rfl | ⟨-, f, rfl⟩
    · cases htarget : w.target with
      | none => exact ⟨emptyTree, by simp [cloneExec, htarget], fun l => rfl⟩
      | some t => exact ⟨t, by simp [cloneExec, htarget], hw t htarget⟩
    · cases hu
  have hnext : out.2.Fresh := fun t' ht' => Option.some.inj (ht.symm.trans ht') ▸ hempty
  refine Lib.wpe_bind (Lib.wpe_mono (wpe_initWorkspace hfresh hnext
    ⟨t, ht, linkless_of_empty hempty, fun x _ => hempty x⟩) fun r w₁ hinit => ⟨fun ws hws => ?_,
      fun e he => ⟨fun ws hws => (by cases hws), fun e' he' => ?_⟩⟩)
  · obtain ⟨hid, hp⟩ := hinit.1 ws hws
    refine Lib.wpe_bind (Lib.wpe_mono (wpe_storeKeyring hfresh hp) fun r w₂ hring =>
      ⟨fun a ha => Lib.wpe_done ⟨fun ws' hws' => ?_, fun e he => by cases he⟩,
        fun e he => ⟨fun ws hws => (by cases hws), fun e' he' => ?_⟩⟩)
    · cases hws'
      exact ⟨hid, hring.1 a ha⟩
    · cases he'
      exact hring.2 e he
  · cases he'
    exact hinit.2 e he

/-! ## The fetch -/

/-- A call that leaves the target alone. -/
def CloneOp.OffTarget : CloneOp → Prop
  | .chunksMissing _ | .fetchChunk _ | .hasMany _ | .put _ _ => True
  | _ => False

theorem offTarget_call {out : op.Ret × CloneHost} (h : op.OffTarget)
    (hout : Lib.Outcome (cloneHost E key R now fails) op w out) : out.2.target = w.target := by
  cases op with
  | chunksMissing | fetchChunk | hasMany =>
    rcases outcome_clone hout with rfl | ⟨-, f, rfl⟩ <;> rfl
  | put hash data =>
    rcases outcome_clone hout with rfl | ⟨-, f, rfl⟩
    · simp only [cloneExec]
      split
      · rfl
      split <;> rfl
    · rfl
  | getSnapshot | readMeta | listTarget | createTarget | disk | removeEntry => cases h

theorem offTarget_orFail {ε : Type} {wrap : ε → CloneError} {r : Except ε α} :
    (orFail wrap r).Safe CloneOp.OffTarget fun _ => True := by
  cases r <;> trivial

/-- The fetch leaves the target alone. -/
theorem offTarget_fetchNeeded (need : List Text) :
    (fetchNeeded E need).Safe CloneOp.OffTarget fun _ => True := by
  unfold fetchNeeded
  split
  · trivial
  refine .bind ⟨trivial, fun present => .bind (.mono offTarget_orFail fun present _ => ?_)⟩
  dsimp only
  split
  · trivial
  refine .bind ⟨trivial, fun missing => .bind (.mono offTarget_orFail fun missing _ => ?_)⟩
  split
  · trivial
  refine .foldlM fun counts hash => ?_
  refine .bind ⟨trivial, fun data => .bind (.mono offTarget_orFail fun data _ => ?_)⟩
  split
  · trivial
  exact .bind ⟨trivial, fun stored => .bind (.mono offTarget_orFail fun stored _ => trivial)⟩

/-! ## The apply -/

/-- A tree of a clone, over the store that the chunks were read from. -/
structure ClonedInto (E : CloneEnv Key) (key : ReadKey Key) (workspace : Text) (wire : Manifest)
    (info : SnapshotInfo) (store : ChunkStore) (t : Tree) : Prop where
  /-- Every file of the snapshot has its chunks' bytes, its permission bits and its time. -/
  files : ∀ (p : Text) (e : FileEntry), wire.files[p]? = some e → ∃ bytes,
    assemble (chunkSource E.cipher key (storeGet E.cipher store)) e.chunks = some bytes ∧
      t.nodes[loc p]? = some (.file bytes ⟨e.mode &&& 0o777, e.mtime⟩)
  /-- There is nothing else but directories and what is Pear's. -/
  only : ∀ l, t.leaf l ≠ none → pearLoc <+: l ∨ ∃ p : Text, wire.files[p]? ≠ none ∧ l = loc p
  /-- The manifest is recorded under the clone's own id. -/
  manifest : ∃ attr, t.nodes[manifestLoc]? =
    some (.file (E.writeManifest (cloneManifest wire E.newId)) attr)
  /-- So is where the clone comes from. -/
  origin : ∃ attr, t.nodes[originLoc]? = some (.file (E.writeOrigin {
    workspaceId := workspace
    snapshotId := info.id
    name := info.name
    clonedAt := E.clonedAt }) attr)

variable {wire : Manifest} {info : SnapshotInfo} {ws : WorkspaceMeta} {store : ChunkStore} {t' : Tree}

/-- A snapshot's entry in the clone's manifest. -/
theorem getElem?_cloneManifest (newId p : Text) : (cloneManifest wire newId).files[p]? =
    wire.files[p]?.map fun e => { e with mode := e.mode &&& 0o777 } := getElem?_maskModes wire.files p

/-- An apply on an empty base, and the recording of the origin after it. -/
theorem ClonedInto.of_turned {t₁ : Tree} {attr : Attr} (hvalid : Valid wire.files)
    (hnone : ∀ x, ¬ pearLoc <+: x → t.nodes[x]? = none)
    (h : TurnedInto (chunkSource E.cipher key (storeGet E.cipher store)) E.writeManifest
      (.new E.newId) (cloneManifest wire E.newId) (cloneManifest wire E.newId) t t₁)
    (horigin : Wrote (fun x => x = pearLoc ++ ["origin.tmp".toList] ∨ x = originLoc) originLoc
      (E.writeOrigin {
        workspaceId := workspace
        snapshotId := info.id
        name := info.name
        clonedAt := E.clonedAt }) attr t₁ t') :
    ClonedInto E key workspace wire info store t' := by
  have hkept : ∀ {l : Loc} {data : Bytes} {a : Attr}, t₁.nodes[l]? = some (.file data a) →
      ¬ (l = pearLoc ++ ["origin.tmp".toList] ∨ l = originLoc) →
      t'.nodes[l]? = some (.file data a) := by
    intro l data a hl hne
    have hleaf : t₁.leaf l = some (.file data a) :=
      Lib.FileTree.leaf_eq_some_iff.mpr ⟨hl, fun h => by cases h⟩
    exact (Lib.FileTree.leaf_eq_some_iff.mp ((horigin.kept l hne).trans hleaf)).1
  refine ⟨fun p e he => ?_, fun l hl => ?_, ?_, ?_⟩
  · obtain ⟨bytes, hbytes, hnode⟩ := h.written p { e with mode := e.mode &&& 0o777 }
      (by rw [getElem?_cloneManifest, he]; rfl) (fun hold => by cases hold)
    refine ⟨bytes, hbytes, ?_⟩
    rw [Nat.and_assoc, Nat.and_self] at hnode
    have hout : Outside (loc p) := (hvalid.path p (by rw [he]; exact Option.some_ne_none _)).outside
    refine hkept hnode ?_
    rintro (heq | heq) <;> exact hout.2 (heq ▸ ⟨_, rfl⟩)
  · by_cases hpear : pearLoc <+: l
    · exact .inl hpear
    refine .inr ?_
    have hl₁ : t₁.leaf l ≠ none := by
      rwa [← horigin.kept l]
      rintro (rfl | rfl) <;> exact hpear ⟨_, rfl⟩
    rcases h.only l hl₁ with hown | ⟨p, hp, rfl⟩ | hold
    · rcases hown with hstaged | rfl | rfl
      · exact absurd ((show pearLoc <+: stagingDir from ⟨_, rfl⟩).trans hstaged) hpear
      · exact absurd ⟨_, rfl⟩ hpear
      · exact absurd ⟨_, rfl⟩ hpear
    · refine ⟨p, fun hnone => hp ?_, rfl⟩
      rw [getElem?_cloneManifest, hnone]
      rfl
    · exact absurd (Lib.FileTree.leaf_of_none (hnone l hpear)) hold.there
  · obtain ⟨a, ha⟩ := h.pointer
    refine ⟨a, hkept ha ?_⟩
    decide
  · exact ⟨attr, (Lib.FileTree.leaf_eq_some_iff.mp horigin.leaf).1⟩

/-- **What is applied is the snapshot**, in a target that is prepared. -/
theorem wpe_cloneApply {Q : Except CloneError CloneReport → CloneHost → Prop} (hfresh : w₀.Fresh)
    (hp : w.Prepared) (hid : ws.id = E.newId) (hvalid : Valid wire.files)
    (hdots : ∀ p : Text, wire.files[p]? ≠ none → ¬ HasDot p)
    (hok : ∀ report w' t, report.workspaceId = E.newId → w'.target = some t →
      ClonedInto E key workspace wire info w'.store t → Q (.ok report) w')
    (herror : ∀ e w', Q (.error e) w') :
    wpe (cloneHost E key R now fails) w₀.Spares Q (cloneApply E workspace wire info ws) w := by
  unfold cloneApply
  have hdirs : InPear (do
      must (.mkdirAll (storeLoc ++ ["chunks".toList]))
      must (.setPrivateDir storeLoc)) :=
    (inPear_must (actsInPear_mkdirAll ⟨_, rfl⟩)).bind fun _ =>
      inPear_must (actsInPear_at (fun _ => rfl) ⟨_, rfl⟩)
  refine Lib.wpe_bind (Lib.wpe_mono (wpe_inPear hfresh hdirs hp) fun r w₁ h₁ =>
    ⟨fun a ha => ?_, fun e _ => herror e w₁⟩)
  have hfetch := Lib.wpe_of_safe (M := cloneHost E key R now fails) (G := w₀.Spares)
    (I := CloneHost.Prepared)
    (offTarget_fetchNeeded (E := E) (wire.files.toList.flatMap (·.2.chunks)).eraseDups)
    (fun op w out hop hw hout => ⟨.inr hfresh, by
      obtain ⟨t, ht, hrest⟩ := hw
      exact ⟨t, (offTarget_call hop hout).trans ht, hrest⟩⟩) (h₁.1 a ha)
  refine Lib.wpe_bind (Lib.wpe_mono hfetch fun r w₂ h₂ => ⟨fun counts _ => ?_, fun e _ => herror e w₂⟩)
  obtain ⟨t, ht, hlinks, hnone⟩ := h₂
  rw [hid]
  have hkey : ∀ p : Text, (Manifest.new E.newId).files[p]? ≠ none ∨
      (cloneManifest wire E.newId).files[p]? ≠ none → wire.files[p]? ≠ none := by
    rintro p (hp | hp) hnone
    · exact hp rfl
    · rw [getElem?_cloneManifest, hnone] at hp
      exact hp rfl
  have happly : Within (chunkSource E.cipher key (storeGet E.cipher w₂.store)) now _ _
      (applyCommit E.lower E.tag E.writeManifest (.new E.newId) (cloneManifest wire E.newId)
        (cloneManifest wire E.newId)) t :=
    within_applyCommit (fun p hp => hdots p (hkey p hp)) (fun p hp => absurd rfl hp)
      (fun l p hl hp heq => ?_) fun l _ => hlinks.plain l
  · refine Lib.wpe_bind (Lib.wpe_mono (wpe_onTarget hfresh ht happly) fun r w₃ h₃ =>
      ⟨fun report hreport => ?_, fun e _ => herror e w₃⟩)
    obtain ⟨t₁, ht₁, hstore, hturned, hnew⟩ := h₃.1 report hreport
    have hlinks₁ : Linkless t₁ := hlinks.mono hnew
    refine Lib.wpe_bind (Lib.wpe_mono (wpe_onTarget hfresh ht₁ (within_writeFileAtomic
      (R := fun _ => True) (hlinks₁.plain _) (hlinks₁.plain _).real (by decide) trivial trivial))
      fun r w₄ h₄ => ⟨fun u hu => Lib.wpe_done ?_, fun e _ => herror e w₄⟩)
    obtain ⟨t₂, ht₂, hstore', attr, hwrote⟩ := h₄.1 u hu
    refine hok _ _ t₂ rfl ht₂ (.of_turned hvalid hnone ?_ hwrote)
    rw [hstore', hstore]
    exact hturned
  · exact (hvalid.path p (hkey p (.inr hp))).outside.2 (heq ▸ Classical.byContradiction fun hpear =>
      hl.there (Lib.FileTree.leaf_of_none (hnone l hpear)))

/-! ## The cleanup -/

/-- Nothing is in the target but below these entries. -/
def CloneHost.OnlyBelow (names : List Text) (w : CloneHost) : Prop :=
  ∀ t, w.target = some t → ∀ l : Loc, t.nodes[l]? ≠ none → ∃ n ∈ names, [n] <+: l

theorem CloneHost.OnlyBelow.fresh (h : w.OnlyBelow []) : w.Fresh := by
  intro t ht l
  by_contra hne
  obtain ⟨n, hn, -⟩ := h t ht l hne
  cases hn

/-- What a listing of the target says. -/
theorem onlyBelow_of_list {out : CloneOp.listTarget.Ret × CloneHost} (hlist : fails .listTarget = false)
    (hout : Lib.Outcome (cloneHost E key R now fails) .listTarget w out) :
    out.2.OnlyBelow (out.1.toOption.getD []) := by
  obtain rfl : out = cloneExec E key R now .listTarget w := by
    rcases outcome_clone hout with h | ⟨hf, -⟩
    · exact h
    · rw [hlist] at hf
      cases hf
  intro t ht l hl
  replace ht : w.target = some t := ht
  obtain ⟨names, hnames, hmem⟩ := t.readDir_root
  obtain ⟨n, hn, hnode⟩ := Lib.FileTree.exists_entry hl
  simp only [cloneExec, ht, hnames]
  exact ⟨n, (hmem n).mpr hnode, hn⟩

/-- A removal that is done removes an entry. -/
theorem onlyBelow_of_remove {name : Text} {names : List Text}
    {out : (CloneOp.removeEntry name).Ret × CloneHost} (hremove : fails (.removeEntry name) = false)
    (h : w.OnlyBelow (name :: names))
    (hout : Lib.Outcome (cloneHost E key R now fails) (.removeEntry name) w out) :
    out.2.OnlyBelow names := by
  obtain rfl : out = cloneExec E key R now (.removeEntry name) w := by
    rcases outcome_clone hout with h | ⟨hf, -⟩
    · exact h
    · rw [hremove] at hf
      cases hf
  rintro t' ht' l hl
  obtain ⟨t, ht, rfl⟩ := Option.map_eq_some_iff.mp ht'
  rw [Lib.FileTree.nodes_removeBelow] at hl
  split at hl
  · exact absurd rfl hl
  rename_i hne
  obtain ⟨n, hn, hpre⟩ := h t ht l hl
  rcases List.mem_cons.mp hn with rfl | hn
  · exact absurd hpre hne
  · exact ⟨n, hn, hpre⟩

/-- **The cleanup leaves nothing**, if nothing that it does fails. -/
theorem wpe_emptyTarget {Q : Except CloneError PUnit → CloneHost → Prop} (hfresh : w₀.Fresh)
    (hok : ∀ w', (fails .listTarget = false → (∀ name, fails (.removeEntry name) = false) →
      w'.Fresh) → Q (.ok ⟨⟩) w') :
    wpe (cloneHost E key R now fails) w₀.Spares Q emptyTarget w := by
  unfold emptyTarget
  refine Lib.wpe_bind (wpe_ask fun out hout => ⟨.inr hfresh, fun r hr => ?_, fun e he => by cases he⟩)
  cases hr
  have hbelow := fun hlist => onlyBelow_of_list hlist hout
  cases hanswer : out.1 with
  | error e =>
    rw [hanswer] at hbelow
    exact Lib.wpe_done (hok _ fun hlist _ => (hbelow hlist).fresh)
  | ok names =>
    rw [hanswer] at hbelow
    dsimp only
    refine Lib.wpe_forM (I := fun names w' => fails .listTarget = false →
      (∀ name, fails (.removeEntry name) = false) → w'.OnlyBelow names)
      (fun w' h => hok w' fun hlist hremove => (h hlist hremove).fresh)
      (fun name names w' h => wpe_ask fun out hout =>
        ⟨.inr hfresh, fun _ _ hlist hremove => ?_, fun e he => by cases he⟩)
      fun hlist _ => hbelow hlist
    exact onlyBelow_of_remove (hremove name) (h hlist hremove) hout

/-! ## The clone -/

/-- A clone that succeeded: the target was fresh, and is a clone of the relay's snapshot. -/
def ClonesTo (E : CloneEnv Key) (key : ReadKey Key) (R : CloneRelay) (workspace : Text) (id : Nat)
    (w w' : CloneHost) (report : CloneReport) : Prop :=
  w.Fresh ∧ ∃ snapshot wire, R.snapshot id = .ok snapshot ∧
    openSnapshot E workspace id key snapshot = .ok wire ∧
    ((∀ p : Text, wire.files[p]? ≠ none → ¬ HasDot p) → report.workspaceId = E.newId ∧
      ∃ t, w'.target = some t ∧ ClonedInto E key workspace wire snapshot.info w'.store t)

/-- A clone that failed: nothing has changed, or what was fresh is fresh again, unless the target was
being set up or the cleanup failed too. -/
def FailsTo (fails : CloneOp → Bool) (w w' : CloneHost) (e : CloneError) : Prop :=
  w' = w ∨ w.Fresh ∧ (e.Setup ∨ ((∀ name, fails (.removeEntry name) = false) → w'.Fresh))

/-- A manifest that may be cloned is valid. -/
theorem valid_of_openSnapshot {s : Snapshot} (h : openSnapshot E workspace id key s = .ok wire) :
    Valid wire.files := by
  unfold openSnapshot at h
  cases hm : snapshotManifest E id key s with
  | error e =>
    rw [hm] at h
    cases h
  | ok m =>
    rw [hm] at h
    cases hv : validate m with
    | error e =>
      simp only [hv, bind, Except.bind, Except.mapError] at h
      cases h
    | ok u =>
      simp only [hv, bind, Except.bind, Except.mapError] at h
      unfold refuseIf at h
      split at h
      · cases h
      · cases h
        exact validate_eq_ok_iff.mp hv

/-- **Every run of a clone** ends so. -/
theorem wpe_clone (hlist : fails .listTarget = false) :
    wpe (cloneHost E key R now fails) w.Spares (fun r w' =>
      (∀ report, r = .ok report → ClonesTo E key R workspace id w w' report) ∧
        ∀ e, r = .error e → FailsTo fails w w' e)
      (clone E workspace id key) w := by
  unfold clone
  refine Lib.wpe_bind (Lib.wpe_mono (wpe_admitClone hlist) fun r w₁ hadmit => ?_)
  obtain ⟨rfl, hadmit⟩ := hadmit
  refine ⟨fun admitted hok => ?_, fun e _ => ⟨fun report hr => (by cases hr), fun e' _ => .inl rfl⟩⟩
  obtain ⟨snapshot, hget, hopen, hinfo, hfresh⟩ := hadmit admitted hok
  refine Lib.wpe_bind (Lib.wpe_mono (wpe_setUpClone hfresh hfresh) fun r w₂ hset =>
    ⟨fun ws hws => ?_, fun e he => ⟨fun report hr => (by cases hr), fun e' he' => ?_⟩⟩)
  swap
  · cases he'
    exact .inr ⟨hfresh, .inl (hset.2 e he)⟩
  obtain ⟨hid, hp⟩ := hset.1 ws hws
  have happly : wpe (cloneHost E key R now fails) w₁.Spares
      (fun r w' => ∀ report, r = .ok report → ClonesTo E key R workspace id w₁ w' report)
      (cloneApply E workspace admitted.1 admitted.2 ws) w₂ := by
    by_cases hdots : ∀ p : Text, admitted.1.files[p]? ≠ none → ¬ HasDot p
    · refine wpe_cloneApply hfresh hp hid (valid_of_openSnapshot hopen) hdots
        (fun report w' t hreport ht hcloned report' hr => ?_) fun e w' report hr => by cases hr
      cases hr
      exact ⟨hfresh, snapshot, admitted.1, hget, hopen, fun _ => ⟨hreport, t, ht, hinfo ▸ hcloned⟩⟩
    · exact Lib.wpe_trivial (fun _ _ _ => .inr hfresh) fun r w' report _ =>
        ⟨hfresh, snapshot, admitted.1, hget, hopen, fun h => absurd h hdots⟩
  refine Lib.wpe_bind (Lib.wpe_attempt (Lib.wpe_mono happly fun r w₃ hr =>
    ⟨fun r' hr' => ?_, fun e he => by cases he⟩))
  obtain rfl := Except.ok.inj hr'
  cases r with
  | ok report =>
    exact Lib.wpe_done ⟨hr, fun e he => by cases he⟩
  | error e =>
    refine Lib.wpe_bind (wpe_emptyTarget hfresh fun w₄ hempty =>
      ⟨fun _ _ => Lib.wpe_fail ?_, fun e he => by cases he⟩)
    exact ⟨fun report hr => (by cases hr), fun _ _ => .inr ⟨hfresh, .inr (hempty hlist)⟩⟩

end

end Pear
