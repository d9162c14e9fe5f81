import Pear.Disk.Specs

/-!
# An apply stays inside the tree

Where the calls of `apply_commit` act, in any tree and with any manifests: each call that creates,
renames, empties or removes something, or sets a mode or a time, names a place below the target with
no link on its way (`DiskEffect.ActsInside`). In `.pear` these are the staging directory, the
manifest with the temporary that is renamed to it, and the mode of `.pear` itself. The temporaries
are opened through a link that stands at their name, so none may stand there.
-/

namespace Pear

open Lib (Errno Node Attr Content)

/-! ## Where calls act -/

/-- `.pear/manifest.json`. -/
def manifestLoc : Loc := pearLoc ++ ["manifest.json".toList]

/-- `.pear/manifest.tmp`. -/
def manifestTmp : Loc := pearLoc ++ ["manifest.tmp".toList]

/-- The paths at which a call creates, renames, empties, writes or removes something, or sets a mode
or a time, each with whether a link at its last name is followed. Making the directories of a path
creates those that are not there. -/
def DiskEffect.acts (t : Tree) : DiskEffect → List (Bool × Loc)
  | .mkdirAll l => (l.inits.filter fun d => !t.isDir d).map (true, ·)
  | .setPrivateDir l | .createPrivate l | .append l _ | .setMode l _ | .setFileMtime l _
  | .copy _ l => [(true, l)]
  | .removeFile l | .removeDir l => [(false, l)]
  | .rename src dst => [(false, src), (false, dst)]
  | .sync _ => []

/-- Where a call may act in `.pear`. -/
def DiskEffect.InPear (e : DiskEffect) (l : Loc) : Prop :=
  e = .setPrivateDir pearLoc ∨ stagingDir <+: l ∨ l = manifestLoc ∨ l = manifestTmp

/-- A path on which a call acts leads through no link, is not the target itself, and is in `.pear`
only where it may be. -/
structure DiskEffect.ActsAt (e : DiskEffect) (t : Tree) (follow : Bool) (l : Loc) : Prop where
  real : if follow then t.Plain l else t.Real l
  below : l ≠ []
  pear : pearLoc <+: l → e.InPear l

/-- A call acts inside the tree. -/
def DiskEffect.ActsInside (e : DiskEffect) (t : Tree) : Prop :=
  ∀ a ∈ e.acts t, e.ActsAt t a.1 a.2

/-- Calls that change nothing act nowhere. -/
def DiskOp.ActsInside (t : Tree) : DiskOp → Prop
  | .effect e => e.ActsInside t
  | _ => True

/-- The contract: every call acts inside the tree, and makes no link. -/
def insideContract : Lib.Contract Tree DiskOp :=
  .alone fun op t t' => op.ActsInside t ∧ NoNewLinks t t'

/-- What a program does inside the tree, with nobody else around. -/
abbrev Stays {α : Type} (source : Text → Option Bytes) (now : Int × Int) (Q : α → Tree → Prop)
    (p : DiskProg α) (t : Tree) : Prop :=
  Lib.wp (disk source now Empty nofun) insideContract Q p t

/-- An assertion that holds as long as no link appears. -/
def LinkStable (I : Tree → Prop) : Prop := ∀ t t', NoNewLinks t t' → I t → I t'

/-! ## Links -/

section
variable {source : Text → Option Bytes} {now : Int × Int} {e : DiskEffect} {t t' : Tree} {l : Loc}

/-- No call makes a link, if none is renamed. -/
theorem DiskEffect.noNewLinks_run (hsrc : ∀ src dst, e = .rename src dst → t.Plain src) :
    NoNewLinks t (e.run now t).2 := by
  intro x target h
  cases e with
  | mkdirAll | setPrivateDir | removeDir | setMode | setFileMtime | sync =>
    rwa [DiskEffect.Quiet.content_run (by trivial)] at h
  | removeFile l =>
    rcases Lib.FileTree.content_unlink t l x with heq | ⟨-, hnone⟩
    · rwa [DiskEffect.run, heq] at h
    · rw [DiskEffect.run, hnone] at h
      cases h
  | createPrivate l =>
    rcases Lib.FileTree.content_write t l x [] (fun old => ⟨(old.map (·.mode)).getD 0o600, now⟩) with
      heq | ⟨-, hfile⟩
    · rwa [DiskEffect.run, heq] at h
    · rw [DiskEffect.run, hfile] at h
      cases h
  | append l data =>
    rcases Lib.FileTree.content_update t l x
      (fun old attr => (old ++ data, { attr with mtime := now })) with heq | ⟨-, _, _, -, hfile⟩
    · rwa [DiskEffect.run, heq] at h
    · rw [DiskEffect.run, hfile] at h
      cases h
  | copy src dst =>
    dsimp only [DiskEffect.run] at h
    split at h
    · rename_i data attr _
      rcases Lib.FileTree.content_write t dst x data (fun _ => { attr with mtime := now }) with
        heq | ⟨-, hfile⟩
      · rwa [heq] at h
      · rw [hfile] at h
        cases h
    · exact h
  | rename src dst =>
    have hplain := hsrc src dst rfl
    rcases Lib.FileTree.content_rename t src dst x with heq | ⟨-, hnone⟩ | ⟨-, y, hy, heq⟩
    · rwa [DiskEffect.run, heq] at h
    · rw [DiskEffect.run, hnone] at h
      cases h
    · rw [DiskEffect.run, heq, hplain.real.eq_of_locate hy] at h
      exact absurd h (hplain src (List.prefix_refl src) target)

/-- Nor does a call that fails. -/
theorem DiskEffect.noNewLinks_partialRun (f : Option Nat) : NoNewLinks t (e.partialRun now f t) := by
  intro x target h
  cases e with
  | mkdirAll | setPrivateDir | removeDir | setMode | setFileMtime | sync =>
    rwa [DiskEffect.Quiet.content_partialRun (by trivial)] at h
  | removeFile | rename | createPrivate => exact h
  | append l data =>
    cases f with
    | none => exact h
    | some n =>
      rcases Lib.FileTree.content_update t l x
        (fun old attr => (old ++ data.take n, { attr with mtime := now })) with
        heq | ⟨-, _, _, -, hfile⟩
      · rwa [DiskEffect.partialRun, heq] at h
      · rw [DiskEffect.partialRun, hfile] at h
        cases h
  | copy src dst =>
    cases f with
    | none => exact h
    | some n =>
      dsimp only [DiskEffect.partialRun] at h
      split at h
      · rename_i data attr _
        rcases Lib.FileTree.content_write t dst x (data.take n) (fun _ => { attr with mtime := now })
          with heq | ⟨-, hfile⟩
        · rwa [heq] at h
        · rw [hfile] at h
          cases h
      · exact h

/-! ## Rules -/

variable {α : Type} {I : Tree → Prop}

theorem linkStable_unlinked (places : List Loc) : LinkStable (Unlinked places) :=
  fun _ _ hlinks h => h.mono hlinks

theorem LinkStable.and_real (hI : LinkStable I) (l : Loc) : LinkStable fun t => I t ∧ t.Real l :=
  fun t t' hlinks h => ⟨hI t t' hlinks h.1, h.2.mono hlinks⟩

/-- A call whose outcome the program looks at. -/
theorem stays_attempt {Q : α → Tree → Prop} {k : Except Errno Unit → DiskProg α} (hI : LinkStable I)
    (hi : I t) (hin : e.ActsInside t) (hsrc : ∀ src dst, e = .rename src dst → t.Plain src)
    (hk : ∀ r t', I t' → (r = .ok () → (e.run now t).1 = .ok () ∧ t' = (e.run now t).2) →
      Stays source now Q (k r) t') :
    Stays source now Q (attempt e >>= k) t := by
  rintro _ rfl - out hout
  cases hout with
  | exec =>
    have hlinks : NoNewLinks t (e.run now t).2 := DiskEffect.noNewLinks_run hsrc
    exact ⟨⟨hin, hlinks⟩, hk _ _ (hI _ _ hlinks hi) fun hr => ⟨hr, rfl⟩⟩
  | fault f =>
    have hlinks : NoNewLinks t (e.partialRun now f t) := DiskEffect.noNewLinks_partialRun f
    exact ⟨⟨hin, hlinks⟩, hk _ _ (hI _ _ hlinks hi) nofun⟩

/-- A call that must succeed. -/
theorem stays_must (hI : LinkStable I) (hi : I t) (hin : e.ActsInside t)
    (hsrc : ∀ src dst, e = .rename src dst → t.Plain src) :
    Stays source now (fun _ t' => I t' ∧ (e.run now t).1 = .ok () ∧ t' = (e.run now t).2) (must e)
      t := by
  refine stays_attempt hI hi hin hsrc fun r t' hi' hr => ?_
  cases r with
  | ok _ =>
    rintro _ rfl
    exact ⟨hi', hr rfl⟩
  | error errno => trivial

/-- The same, when the program only goes on. -/
theorem stays_must_keep (hI : LinkStable I) (hi : I t) (hin : e.ActsInside t)
    (hsrc : ∀ src dst, e ≠ .rename src dst) : Stays source now (fun _ => I) (must e) t :=
  Lib.wp_mono (stays_must hI hi hin fun src dst h => absurd h (hsrc src dst)) fun _ _ h => h.1

/-- A call whose failure is ignored. -/
theorem stays_ignore (hI : LinkStable I) (hi : I t) (hin : e.ActsInside t)
    (hsrc : ∀ src dst, e ≠ .rename src dst) : Stays source now (fun _ => I) (ignore e) t := by
  refine stays_attempt hI hi hin (fun src dst h => absurd h (hsrc src dst)) fun _ t' hi' _ => ?_
  rintro _ rfl
  exact hi'

/-- The end of a program. -/
theorem stays_done {Q : α → Tree → Prop} {a : α} (h : Q a t) : Stays source now Q (.done a) t := by
  rintro _ rfl
  exact h

/-- A loop whose body keeps an assertion. -/
theorem stays_forM {γ : Type} {f : γ → DiskProg PUnit} {xs : List γ}
    (h : ∀ x ∈ xs, ∀ t, I t → Stays source now (fun _ => I) (f x) t) (hi : I t) :
    Stays source now (fun _ => I) (forM xs f) t := by
  induction xs generalizing t with
  | nil => exact stays_done hi
  | cons x xs ih =>
    refine Lib.wp_bind (Lib.wp_mono (h x List.mem_cons_self t hi) fun _ t' hi' => ?_)
    exact ih (fun y hy => h y (List.mem_cons_of_mem _ hy)) hi'

/-- The ancestors of a destination are looked at. -/
theorem stays_ensureRealAncestors (hi : I t) :
    Stays source now (fun _ t => I t ∧ t.Real l) (ensureRealAncestors l) t := by
  refine wp_ensureRealAncestors (C := insideContract) (fun _ _ => ⟨trivial, fun _ _ h => h⟩) ?_ ?_ hi
  · rintro t _ rfl x target
    exact Iff.rfl
  · rintro t _ rfl h
    exact h

/-! ## The places of an apply -/

/-- A place below the target that is not in `.pear`. -/
def Outside (l : Loc) : Prop := l ≠ [] ∧ ¬ pearLoc <+: l

/-- Keys of an accepted manifest are such places. -/
theorem ValidPath.outside {p : Text} (h : ValidPath p) : Outside (loc p) := by
  cases hp : p.splitOn '/' with
  | nil => exact absurd hp (List.splitOn_ne_nil _ _)
  | cons c cs =>
    obtain ⟨h0, h2⟩ := h.part c (by simp [hp])
    obtain ⟨h1, hpear⟩ := h.first c (by simp [hp])
    have hloc : loc p = c :: cs.filter fun c => c ≠ [] ∧ c ≠ ['.'] ∧ c ≠ ['.', '.'] := by
      rw [loc_eq_parts, hp]
      simp [h0, h1, h2]
    refine ⟨by simp [hloc], fun hpre => ?_⟩
    rw [hloc] at hpre
    rw [← (List.cons_prefix_cons.mp hpre).1] at hpear
    simp [eqIgnoreAsciiCase] at hpear

/-- What is above such a place is one too. -/
theorem Outside.above {d : Loc} (h : Outside l) (hd : d <+: l) (hne : d ≠ []) : Outside d :=
  ⟨hne, fun hpear => h.2 (hpear.trans hd)⟩

/-- An action at one place, at which no link is followed. -/
theorem Outside.actsAt (h : Outside l) {follow : Bool} (hreal : if follow then t.Plain l else t.Real l) :
    e.ActsAt t follow l :=
  ⟨hreal, h.1, fun hpear => absurd hpear h.2⟩

/-- A directory above a real place is plain. -/
theorem plain_above {d : Loc} (h : t.Real l) (hd : d <+: l) (hne : d ≠ l) : t.Plain d := by
  intro x hx target
  refine h x (hx.trans hd) ?_ target
  rintro rfl
  exact hne (hd.eq_of_length_le hx.length_le)

/-- No directory is below a link. -/
theorem plain_of_dir (h : t.nodes[l]? = some .dir) : t.Plain l := by
  intro d hd target hl
  have hdir : d = [] ∨ t.nodes[d]? = some .dir := by
    by_cases hne : d = l
    · exact .inr (hne ▸ h)
    · exact Lib.FileTree.isDir_of_prefix (by simp [h]) hd hne
  rcases hdir with rfl | hdir
  · rw [t.content_root] at hl
    cases hl
  · rw [Lib.FileTree.content_of_dir hdir] at hl
    cases hl

/-- A place in a plain directory is plain when it is no link itself. -/
theorem plain_concat {name : Text} (h : t.Plain l)
    (hno : ∀ target, t.content (l ++ [name]) ≠ some (.link target)) : t.Plain (l ++ [name]) := by
  intro d hd
  rcases List.prefix_concat_iff.mp hd with rfl | hd
  · exact hno
  · exact h d hd

/-- The last name of a place is not above it. -/
theorem dropLast_ne (h : l ≠ []) : l.dropLast ≠ l := by
  intro he
  have hlen : l.dropLast.length = l.length := by rw [he]
  have hpos : 0 < l.length := List.length_pos_iff.mpr h
  rw [List.length_dropLast] at hlen
  omega

/-! ## The programs -/

/-- A file is deleted, with the directories that become empty. -/
theorem stays_deleteFile {rel : Text} (hI : LinkStable I) (hrel : Outside (loc rel)) (hi : I t) :
    Stays source now (fun _ => I) (deleteFile rel) t := by
  have hI' : LinkStable fun t => I t ∧ t.Real (loc rel) := hI.and_real (loc rel)
  have hprune : ∀ (ds : List Loc), ds ⊆ dirsAbove (loc rel) → ∀ t : Tree, I t ∧ t.Real (loc rel) →
      Stays source now (fun _ => I) (pruneDirs ds) t := by
    intro ds
    induction ds with
    | nil => exact fun _ t hi => stays_done hi.1
    | cons d ds ih =>
      intro hsub t hi
      obtain ⟨hpre, hne, hd⟩ := mem_dirsAbove.mp (hsub List.mem_cons_self)
      refine stays_attempt hI' hi ?_ nofun fun r t' hi' _ => ?_
      · intro a ha
        rw [List.mem_singleton.mp ha]
        exact (hrel.above hpre hne).actsAt (plain_above hi.2 hpre hd).real
      · cases r with
        | ok _ => exact ih (fun x hx => hsub (List.mem_cons_of_mem d hx)) t' hi'
        | error _ => exact stays_done hi'.1
  unfold deleteFile
  refine Lib.wp_bind (Lib.wp_mono (stays_ensureRealAncestors hi) fun _ t hi => ?_)
  refine Lib.wp_bind (Lib.wp_mono (Q := fun _ t => I t ∧ t.Real (loc rel)) ?_ fun _ t hi => ?_)
  · refine stays_attempt hI' hi ?_ nofun fun r t' hi' _ => ?_
    · intro a ha
      rw [List.mem_singleton.mp ha]
      exact hrel.actsAt hi.2
    · cases r with
      | ok _ => exact stays_done hi'
      | error errno =>
        cases errno with
        | notFound => exact stays_done hi'
        | _ => trivial
  · exact hprune _ (List.Subset.refl _) t hi

/-- The paths an apply writes. -/
abbrev writtenPaths (old new : FileMap) : List Text := (diff old new).added ++ (diff old new).changed

/-- The places in `.pear` at which an apply opens files. -/
def applyPlaces (tag : Text → Text) (rels : List Text) : List Loc :=
  stagingDir :: manifestTmp :: rels.map (stagePath tag)

/-- No link stands at or above these when the directories are there and none stands in them. -/
theorem unlinked_applyPlaces {tag : Text → Text} {rels : List Text}
    (hpear : t.nodes[pearLoc]? = some .dir) (hstaging : t.nodes[stagingDir]? = some .dir)
    (hmanifest : ∀ target, t.content manifestTmp ≠ some (.link target))
    (hstaged : ∀ rel ∈ rels, ∀ target, t.content (stagePath tag rel) ≠ some (.link target)) :
    Unlinked (applyPlaces tag rels) t := by
  intro l hl
  rcases List.mem_cons.mp hl with rfl | hl
  · exact plain_of_dir hstaging
  rcases List.mem_cons.mp hl with rfl | hl
  · exact plain_concat (plain_of_dir hpear) hmanifest
  · obtain ⟨rel, hrel, rfl⟩ := List.mem_map.mp hl
    exact plain_concat (plain_of_dir hstaging) (hstaged rel hrel)

/-- An action at one of these. -/
theorem Unlinked.actsAt {tag : Text → Text} {rels : List Text}
    (h : Unlinked (applyPlaces tag rels) t) (hl : l ∈ applyPlaces tag rels) : e.ActsAt t true l := by
  refine ⟨h l hl, ?_, fun _ => ?_⟩
  · rintro rfl
    simp [applyPlaces, stagingDir, manifestTmp, stagePath] at hl
  · rcases List.mem_cons.mp hl with rfl | hl
    · exact .inr (.inl (List.prefix_refl _))
    rcases List.mem_cons.mp hl with rfl | hl
    · exact .inr (.inr (.inr rfl))
    · obtain ⟨rel, -, rfl⟩ := List.mem_map.mp hl
      exact .inr (.inl (List.prefix_append _ _))

/-- The chunks of an entry are written to an open file. -/
theorem stays_appendChunks {rel : Text} {hashes : List Text} (hI : LinkStable I)
    (hin : ∀ data t, I t → (DiskEffect.append l data).ActsInside t) (hi : I t) :
    Stays source now (fun _ => I) (appendChunks l rel hashes) t := by
  refine stays_forM (fun hash _ t hi => ?_) hi
  rintro _ rfl - out hout
  have hquiet : insideContract.guarantee (.getChunk hash) t t := ⟨trivial, fun _ _ h => h⟩
  cases hout with
  | exec =>
    refine ⟨hquiet, ?_⟩
    dsimp only [disk]
    cases source hash with
    | none => trivial
    | some data => exact stays_must_keep hI hi (hin data t hi) nofun
  | fault f => exact ⟨hquiet, trivial⟩

/-- A file is assembled and renamed into place. -/
theorem stays_writeFile {tag : Text → Text} {rels : List Text} {rel : Text} {entry : FileEntry}
    (hrel : Outside (loc rel)) (hmem : rel ∈ rels) (h : Unlinked (applyPlaces tag rels) t) :
    Stays source now (fun _ => Unlinked (applyPlaces tag rels)) (writeFile tag rel entry) t := by
  have hI : LinkStable (Unlinked (applyPlaces tag rels)) := linkStable_unlinked _
  have hI' := hI.and_real (loc rel)
  have hstaged : stagePath tag rel ∈ applyPlaces tag rels :=
    List.mem_cons_of_mem _ (List.mem_cons_of_mem _ (List.mem_map_of_mem hmem))
  have hat : ∀ {e : DiskEffect} {t : Tree}, Unlinked (applyPlaces tag rels) t →
      ∀ a ∈ [(true, stagePath tag rel)], e.ActsAt t a.1 a.2 := by
    intro e t h a ha
    rw [List.mem_singleton.mp ha]
    exact h.actsAt hstaged
  unfold writeFile
  refine Lib.wp_bind (Lib.wp_mono (stays_must_keep hI h (hat h) nofun) fun _ t h => ?_)
  refine Lib.wp_bind (Lib.wp_mono (stays_appendChunks hI (fun _ _ h => hat h) h) fun _ t h => ?_)
  refine Lib.wp_bind (Lib.wp_mono (stays_must_keep hI h (hat h) nofun) fun _ t h => ?_)
  refine Lib.wp_bind (Lib.wp_mono (stays_ensureRealAncestors h) fun _ t h => ?_)
  refine Lib.wp_bind (Lib.wp_mono (stays_must_keep hI' h ?_ nofun) fun _ t h => ?_)
  · rintro ⟨follow, d⟩ ha
    obtain ⟨x, hx, heq⟩ := List.mem_map.mp ha
    cases heq
    obtain ⟨hmem, hdir⟩ := List.mem_filter.mp hx
    have hpre : d <+: (loc rel).dropLast := (List.mem_inits _ _).mp hmem
    have hne : d ≠ [] := by
      rintro rfl
      simp [Lib.FileTree.isDir] at hdir
    have hd : d <+: loc rel := hpre.trans (List.dropLast_prefix _)
    refine (hrel.above hd hne).actsAt (plain_above h.2 hd ?_)
    rintro rfl
    exact dropLast_ne hrel.1 (List.IsPrefix.eq_of_length_le (List.dropLast_prefix _) hpre.length_le)
  have hplain : t.Plain (stagePath tag rel) := h.1 _ hstaged
  refine Lib.wp_bind (Lib.wp_mono (stays_must hI' h ?_ ?_) fun _ t' hpost => ?_)
  · intro a ha
    rcases List.mem_cons.mp ha with rfl | ha
    · exact ⟨hplain.real, by simp [stagePath, stagingDir],
        fun _ => .inr (.inl (List.prefix_append _ _))⟩
    · rw [List.mem_singleton.mp ha]
      exact hrel.actsAt h.2
  · rintro _ _ heq
    cases heq
    exact hplain
  · obtain ⟨⟨h', hreal⟩, hok, rfl⟩ := hpost
    refine stays_must_keep hI h' ?_ nofun
    intro a ha
    rw [List.mem_singleton.mp ha]
    refine hrel.actsAt fun d hd target hl => ?_
    by_cases heq : d = loc rel
    · subst heq
      rw [DiskEffect.run, Lib.FileTree.content_rename_self hplain.real h.2 hok] at hl
      exact hplain _ (List.prefix_refl _) target hl
    · exact hreal d hd heq target hl

/-- The staging directory is emptied. -/
theorem stays_cleanStaging (hI : LinkStable I) (hplain : ∀ t, I t → t.Plain stagingDir) (hi : I t) :
    Stays source now (fun _ => I) cleanStaging t := by
  rintro _ rfl - out hout
  have hquiet : insideContract.guarantee (.readDir stagingDir) t t := ⟨trivial, fun _ _ h => h⟩
  cases hout with
  | exec =>
    refine ⟨hquiet, ?_⟩
    dsimp only [disk]
    cases t.readDir stagingDir with
    | error _ => exact stays_done hi
    | ok names =>
      refine stays_forM (fun name _ t hi => stays_ignore hI hi (fun a ha => ?_) nofun) hi
      rw [List.mem_singleton.mp ha]
      exact ⟨real_concat (hplain t hi) name, by simp, fun _ => .inr (.inl (List.prefix_append _ _))⟩
  | fault f => exact ⟨hquiet, stays_done hi⟩

/-- The staging directory is prepared, where it and `.pear` are there. -/
theorem stays_prepareStaging {tag : Text → Text} {rels : List Text} (hpear : t.isDir pearLoc = true)
    (hstaging : t.isDir stagingDir = true) (h : Unlinked (applyPlaces tag rels) t) :
    Stays source now (fun _ => Unlinked (applyPlaces tag rels)) prepareStaging t := by
  have hI : LinkStable (Unlinked (applyPlaces tag rels)) := linkStable_unlinked _
  have hplain : ∀ t, Unlinked (applyPlaces tag rels) t → t.Plain stagingDir :=
    fun t h => h _ List.mem_cons_self
  unfold prepareStaging
  refine Lib.wp_bind (Lib.wp_mono (stays_must_keep hI h ?_ fun _ _ he => by cases he) fun _ t h => ?_)
  · rintro a ha
    obtain ⟨d, hd, -⟩ := List.mem_map.mp ha
    obtain ⟨hmem, hdir⟩ := List.mem_filter.mp hd
    -- Both directories are there, so none is made.
    have hroot : t.isDir [] = true := rfl
    have hall : ∀ d ∈ [[], pearLoc, stagingDir], t.isDir d = true := by
      simp only [List.forall_mem_cons, hroot, hpear, hstaging, List.not_mem_nil, false_implies,
        implies_true, and_self]
    rw [hall d hmem] at hdir
    cases hdir
  refine Lib.wp_bind (Lib.wp_mono (stays_must_keep hI h ?_ fun _ _ he => by cases he) fun _ t h => ?_)
  · intro a ha
    rw [List.mem_singleton.mp ha]
    have hpre : pearLoc <+: stagingDir := ⟨["staging".toList], rfl⟩
    exact ⟨fun d hd => hplain t h d (hd.trans hpre), by simp [pearLoc], fun _ => .inl rfl⟩
  refine Lib.wp_bind (Lib.wp_mono (stays_must_keep hI h ?_ fun _ _ he => by cases he) fun _ t h => ?_)
  · intro a ha
    rw [List.mem_singleton.mp ha]
    exact h.actsAt List.mem_cons_self
  exact stays_cleanStaging hI hplain h

/-- The deletes and writes. -/
theorem stays_applyDiff {tag : Text → Text} {old new : FileMap} (hold : Valid old) (hnew : Valid new)
    (h : Unlinked (applyPlaces tag ((diff old new).added ++ (diff old new).changed)) t) :
    Stays source now
      (fun _ => Unlinked (applyPlaces tag ((diff old new).added ++ (diff old new).changed)))
      (applyDiff tag old new) t := by
  have hdelete : ∀ rel ∈ (diff old new).deleted, ∀ t,
      Unlinked (applyPlaces tag ((diff old new).added ++ (diff old new).changed)) t →
      Stays source now
        (fun _ => Unlinked (applyPlaces tag ((diff old new).added ++ (diff old new).changed)))
        (deleteFile rel) t := by
    intro rel hrel t h
    exact stays_deleteFile (linkStable_unlinked _) (hold.path rel (mem_deleted.mp hrel).1).outside h
  have hwrite : ∀ rel ∈ (diff old new).added ++ (diff old new).changed, ∀ t,
      Unlinked (applyPlaces tag ((diff old new).added ++ (diff old new).changed)) t →
      Stays source now
        (fun _ => Unlinked (applyPlaces tag ((diff old new).added ++ (diff old new).changed)))
        (writeEntry tag new rel) t := by
    intro rel hrel t h
    unfold writeEntry
    cases hentry : new[rel]? with
    | none => trivial
    | some entry => exact stays_writeFile (hnew.path rel (by simp [hentry])).outside hrel h
  unfold applyDiff
  refine Lib.wp_bind (Lib.wp_mono
    (stays_forM (fun rel hrel => hdelete rel (List.mem_filter.mp hrel).1) h) fun _ t h => ?_)
  refine Lib.wp_bind (Lib.wp_mono
    (stays_forM (fun rel hrel => hwrite rel (List.mem_filter.mp hrel).1) h) fun _ t h => ?_)
  refine Lib.wp_bind (Lib.wp_mono
    (stays_forM (fun rel hrel => hdelete rel (List.mem_filter.mp hrel).1) h) fun _ t h => ?_)
  exact stays_forM (fun rel hrel => hwrite rel (List.mem_filter.mp hrel).1) h

/-- The flush changes nothing. -/
theorem stays_flushDiff {old new : FileMap} (hI : LinkStable I) (hi : I t) :
    Stays source now (fun _ => I) (flushDiff old new) t := by
  unfold flushDiff
  refine Lib.wp_bind (Lib.wp_mono (stays_forM (fun rel _ t hi => ?_) hi) fun _ t hi => ?_)
  · refine stays_attempt hI hi (by simp [DiskEffect.ActsInside, DiskEffect.acts]) nofun
      fun r t' hi' _ => ?_
    cases r with
    | ok _ => exact stays_done hi'
    | error errno =>
      cases errno with
      | notFound => exact stays_done hi'
      | _ => trivial
  · exact stays_forM (fun dir _ t hi => stays_ignore hI hi
      (by simp [DiskEffect.ActsInside, DiskEffect.acts]) nofun) hi

/-- The manifest is swapped. -/
theorem stays_writeManifest {tag : Text → Text} {rels : List Text} {data : Bytes}
    (h : Unlinked (applyPlaces tag rels) t) :
    Stays source now (fun _ => Unlinked (applyPlaces tag rels))
      (writeFileAtomic manifestTmp manifestLoc data) t := by
  have hI : LinkStable (Unlinked (applyPlaces tag rels)) := linkStable_unlinked _
  have hmem : manifestTmp ∈ applyPlaces tag rels := List.mem_cons_of_mem _ List.mem_cons_self
  have hat : ∀ {e : DiskEffect} {t : Tree}, Unlinked (applyPlaces tag rels) t →
      ∀ a ∈ [(true, manifestTmp)], e.ActsAt t a.1 a.2 := by
    intro e t h a ha
    rw [List.mem_singleton.mp ha]
    exact h.actsAt hmem
  have hsync : ∀ {t : Tree} (l : Loc), (DiskEffect.sync l).ActsInside t := by
    simp [DiskEffect.ActsInside, DiskEffect.acts]
  unfold writeFileAtomic
  refine Lib.wp_bind (Lib.wp_mono (stays_must_keep hI h (hat h) nofun) fun _ t h => ?_)
  refine Lib.wp_bind (Lib.wp_mono (stays_must_keep hI h (hat h) nofun) fun _ t h => ?_)
  refine Lib.wp_bind (Lib.wp_mono (stays_must_keep hI h (hsync _) nofun) fun _ t h => ?_)
  refine Lib.wp_bind (Lib.wp_mono (stays_must hI h ?_ ?_) fun _ t' hpost => ?_)
  · have hplain : t.Plain manifestTmp := h _ hmem
    have hpear : t.Plain pearLoc := fun d hd => hplain d (hd.trans ⟨["manifest.tmp".toList], rfl⟩)
    intro a ha
    rcases List.mem_cons.mp ha with rfl | ha
    · exact ⟨hplain.real, by simp [manifestTmp, pearLoc], fun _ => .inr (.inr (.inr rfl))⟩
    · rw [List.mem_singleton.mp ha]
      exact ⟨real_concat hpear _, by simp [manifestLoc, pearLoc], fun _ => .inr (.inr (.inl rfl))⟩
  · rintro _ _ heq
    cases heq
    exact h _ hmem
  · exact stays_ignore hI hpost.1 (hsync _) nofun

/-- **An apply acts inside the tree.** -/
theorem stays_applyCommit {lower tag : Text → Text} {encode : Manifest → Bytes}
    {old new commit : Manifest} (hpear : t.isDir pearLoc = true) (hstaging : t.isDir stagingDir = true)
    (h : Unlinked (applyPlaces tag
      ((diff old.files new.files).added ++ (diff old.files new.files).changed)) t) :
    Stays source now (fun _ _ => True) (applyCommit lower tag encode old new commit) t := by
  unfold applyCommit
  refine Lib.wp_bind (Lib.wp_mono (Q := fun _ t' => t' = t ∧ Valid old.files ∧ Valid new.files) ?_
    fun _ t' hvalid => ?_)
  · unfold checkManifests
    cases hold : validate old with
    | error e => trivial
    | ok _ =>
      cases hnew : validate new with
      | error e => trivial
      | ok _ =>
        cases collision lower [] new.files.keys with
        | some pair => trivial
        | none => exact stays_done ⟨rfl, validate_eq_ok_iff.mp hold, validate_eq_ok_iff.mp hnew⟩
  obtain ⟨rfl, hold, hnew⟩ := hvalid
  refine Lib.wp_bind (Lib.wp_mono (stays_prepareStaging hpear hstaging h) fun _ t h => ?_)
  refine Lib.wp_bind (Lib.wp_mono (stays_applyDiff hold hnew h) fun _ t h => ?_)
  refine Lib.wp_bind (Lib.wp_mono (stays_flushDiff (linkStable_unlinked _) h) fun _ t h => ?_)
  exact Lib.wp_bind (Lib.wp_mono (stays_writeManifest h) fun _ _ _ => stays_done trivial)

end

/-! ## Runs -/

/-- **Every call of an apply acts inside the tree**, at every point of every run, failed calls
included, whatever the manifests and the chunks are and whatever else is below the target: `.pear` and
its staging directory are directories, and no link stands where a temporary is opened. -/
theorem apply_stays_inside {source : Text → Option Bytes} {now : Int × Int} {lower tag : Text → Text}
    {encode : Manifest → Bytes} {old new commit : Manifest} {t t' : Tree}
    {ticks : List (Lib.Tick (Option Nat) Empty)} {e : DiskEffect}
    {k : Except Errno Unit → DiskProg ApplyReport}
    (hpear : t.nodes[pearLoc]? = some .dir) (hstaging : t.nodes[stagingDir]? = some .dir)
    (hmanifest : ∀ target, t.content manifestTmp ≠ some (.link target))
    (hstaged : ∀ rel ∈ (diff old.files new.files).added ++ (diff old.files new.files).changed,
      ∀ target, t.content (stagePath tag rel) ≠ some (.link target))
    (run : Lib.Run (disk source now Empty nofun).step (fun _ _ => True)
      (t, applyCommit lower tag encode old new commit) ticks (t', .call (.effect e) k)) :
    ∀ a ∈ e.acts t', e.ActsAt t' a.1 a.2 := by
  have hspec : Stays source now (fun _ _ => True) (applyCommit lower tag encode old new commit) t :=
    stays_applyCommit (by simp [Lib.FileTree.isDir, hpear]) (by simp [Lib.FileTree.isDir, hstaging])
      (unlinked_applyPlaces hpear hstaging hmanifest hstaged)
  have hadmissible := Lib.admissible_of_isEmpty (C := insideContract) (fun _ _ => trivial) run
  exact (Lib.wp_run hadmissible hspec t' rfl trivial _ .exec).1.1

/-- A target with nothing in it. -/
def emptyTree : Tree where
  nodes := ∅
  root := rfl
  parent := fun _ _ h => (h rfl).elim

/-- A target with the directories of `.pear` alone. -/
def preparedTree : Tree := (emptyTree.mkdirs [] stagingDir).2

/-- The same, with a link at `.pear/manifest.tmp` that leads out of it. -/
def linkedTree : Tree := (preparedTree.put manifestTmp (.link [.root])).getD preparedTree

/-- A manifest with these files. -/
def manifestOf (files : FileMap) : Manifest :=
  { Manifest.new "w".toList with files }

/-- An empty file. -/
def emptyFile : FileEntry := { size := 0, mode := 0o644, mtimeSecs := 0, mtimeNanos := 0, chunks := [] }

/-- A program is about to make this call, on a tree that meets a check. -/
def atCall {α : Type} (e : DiskEffect) (check : Tree → Bool) : Tree × DiskProg α → Bool
  | (t, .call (.effect e') _) => decide (e' = e) && check t
  | _ => false

/-- The call that a program comes to is found by executing it. -/
theorem exists_at_call {α : Type} {M : Lib.Machine Tree DiskOp DiskOp.Ret (Option Nat) Empty}
    {s : Tree × DiskProg α} {ticks : List (Lib.Tick (Option Nat) Empty)} {e : DiskEffect}
    {check : Tree → Bool} (h : (Lib.replay M.step s ticks).map (atCall e check) = some true) :
    ∃ t' k, Lib.Run M.step (fun _ _ => True) s ticks (t', .call (.effect e) k) ∧ check t' = true := by
  obtain ⟨⟨t', p⟩, hs, hat⟩ := Option.map_eq_some_iff.mp h
  unfold atCall at hat
  split at hat
  · rename_i t' e' k heq
    cases heq
    obtain ⟨he, hcheck⟩ := Bool.and_eq_true_iff.mp hat
    obtain rfl := of_decide_eq_true he
    exact ⟨_, _, Lib.Run.of_replay (fun _ _ _ => trivial) hs, hcheck⟩
  · cases hat

/-- A program has ended, on a tree that meets a check. -/
def ended {α : Type} (check : Tree → Bool) : Tree × DiskProg α → Bool
  | (t, .done _) => check t
  | _ => false

/-- The end of a program is found by executing it. -/
theorem exists_ended {α : Type} {M : Lib.Machine Tree DiskOp DiskOp.Ret (Option Nat) Empty}
    {s : Tree × DiskProg α} {ticks : List (Lib.Tick (Option Nat) Empty)} {check : Tree → Bool}
    (h : (Lib.replay M.step s ticks).map (ended check) = some true) :
    ∃ t' a, Lib.Run M.step (fun _ _ => True) s ticks (t', .done a) ∧ check t' = true := by
  obtain ⟨⟨t', p⟩, hs, hended⟩ := Option.map_eq_some_iff.mp h
  cases p with
  | done a => exact ⟨t', a, Lib.Run.of_replay (fun _ _ _ => trivial) hs, hended⟩
  | fail | call => cases hended

/-- A prepared target with files at these places. -/
def treeWith (places : List Loc) : Tree :=
  places.foldl (fun t l => ((t.mkdirs [] l.dropLast).2.put l (.file [] ⟨0o644, (0, 0)⟩)).getD t)
    preparedTree

/-- The first file of an apply is staged inside the tree. -/
theorem apply_stays_inside_staged : ∃ (t' : Tree) (k : Except Errno Unit → DiskProg ApplyReport),
    Lib.Run (disk (fun _ => none) (0, 0) Empty nofun).step (fun _ _ => True)
      (preparedTree, applyCommit id id (fun _ => []) (manifestOf ∅)
        (manifestOf (.ofList [("a".toList, emptyFile)] compare)) (manifestOf ∅))
      [.go, .go, .go, .go] (t', .call (.effect (.createPrivate (stagePath id "a".toList))) k) ∧
    ∀ a ∈ (DiskEffect.createPrivate (stagePath id "a".toList)).acts t',
      (DiskEffect.createPrivate (stagePath id "a".toList)).ActsAt t' a.1 a.2 := by
  have hrun : (Lib.replay (disk (fun _ => none) (0, 0) Empty nofun).step
      (preparedTree, applyCommit id id (fun _ => []) (manifestOf ∅)
        (manifestOf (.ofList [("a".toList, emptyFile)] compare)) (manifestOf ∅))
      [.go, .go, .go, .go]).map
        (atCall (.createPrivate (stagePath id "a".toList)) fun _ => true) = some true := by
    decide +kernel
  obtain ⟨t', k, run, -⟩ := exists_at_call hrun
  have hmanifest : preparedTree.content manifestTmp = none := by decide +kernel
  have hstaged : preparedTree.content (stagePath id "a".toList) = none := by decide +kernel
  have hwritten : (diff (manifestOf ∅).files (manifestOf (.ofList [("a".toList, emptyFile)]
      compare)).files).added ++ (diff (manifestOf ∅).files (manifestOf (.ofList [("a".toList,
      emptyFile)] compare)).files).changed = ["a".toList] := by
    decide +kernel
  refine ⟨t', k, run, apply_stays_inside (by decide +kernel) (by decide +kernel) ?_ ?_ run⟩
  · rw [hmanifest]
    nofun
  · intro rel hrel target
    rw [hwritten] at hrel
    rw [List.mem_singleton.mp hrel, hstaged]
    nofun

/-- Where a link stands at `.pear/manifest.tmp`, an apply opens it, empties what it leads to, and
writes there: neither the staging directory nor the manifest, and here outside the tree. -/
theorem manifest_tmp_leaves_tree :
    linkedTree.nodes[pearLoc]? = some .dir ∧ linkedTree.nodes[stagingDir]? = some .dir ∧
    ∃ (t' : Tree) (k : Except Errno Unit → DiskProg ApplyReport),
      Lib.Run (disk (fun _ => none) (0, 0) Empty nofun).step (fun _ _ => True)
        (linkedTree, applyCommit id id (fun _ => []) (manifestOf ∅) (manifestOf ∅) (manifestOf ∅))
        [.go, .go, .go, .go] (t', .call (.effect (.createPrivate manifestTmp)) k) ∧
      ¬ stagingDir <+: manifestTmp ∧ manifestTmp ≠ manifestLoc ∧
      t'.locate true manifestTmp = .ok none := by
  refine ⟨by decide +kernel, by decide +kernel, ?_⟩
  have hrun : (Lib.replay (disk (fun _ => none) (0, 0) Empty nofun).step
      (linkedTree, applyCommit id id (fun _ => []) (manifestOf ∅) (manifestOf ∅) (manifestOf ∅))
      [.go, .go, .go, .go]).map (atCall (.createPrivate manifestTmp)
        fun t => decide (t.locate true manifestTmp = .ok none)) = some true := by
    decide +kernel
  obtain ⟨t', k, run, hcheck⟩ := exists_at_call hrun
  exact ⟨t', k, run, by decide, by decide, of_decide_eq_true hcheck⟩

end Pear
