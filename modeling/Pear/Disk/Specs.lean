import Pear.Disk.Calls
import Pear.Capture

/-!
# Specifications of the disk programs

One specification for each program of `Pear.Disk`, against the contract of `Pear.Disk.Calls`. A
specification asks for the changes the program makes to be allowed, and says what its success means.
Calls that change no content are `Quiet` and keep every assertion; the others change the content of
the one place they name, since the programs look for links before they use a path.
-/

namespace Pear

open Lib (Errno Node Attr Content)

/-! ## Calls -/

/-- Calls that change directories or metadata only. -/
def DiskEffect.Quiet : DiskEffect → Prop
  | .mkdirAll _ | .setPrivateDir _ | .removeDir _ | .setMode _ _ | .setFileMtime _ _ | .sync _ => True
  | _ => False

/-- A call keeps to the allowed changes, whether it fails or not. -/
structure DiskEffect.Meets (now : Int × Int) (allowed : Loc → Option (Content Text) → Prop)
    (e : DiskEffect) (t : Tree) : Prop where
  exec : Keeps allowed (.effect e) t (e.run now t).2
  fault : ∀ f, Keeps allowed (.effect e) t (e.partialRun now f t)

section
variable {now : Int × Int} {allowed : Loc → Option (Content Text) → Prop} {e : DiskEffect}
  {t t' : Tree} {l x : Loc}

/-- Changing metadata changes no content. -/
theorem content_update_metadata (t : Tree) (l : Loc) {f : List UInt8 → Attr → List UInt8 × Attr}
    (hf : ∀ data attr, (f data attr).1 = data) (x : Loc) :
    (t.update l f).2.content x = t.content x := by
  rcases Lib.FileTree.content_update t l x f with h | ⟨-, data, attr, hold, hnew⟩
  · exact h
  · rw [hnew, hold, hf]

/-- A quiet call changes no content. -/
theorem DiskEffect.Quiet.content_run (h : e.Quiet) (x : Loc) :
    (e.run now t).2.content x = t.content x := by
  cases e with
  | mkdirAll l => exact Lib.FileTree.content_mkdirs x l [] t
  | removeDir l => exact Lib.FileTree.content_rmdir t l x
  | setPrivateDir l | setMode l | setFileMtime l | sync l =>
    exact content_update_metadata t l (fun _ _ => rfl) x
  | removeFile | rename | createPrivate | append | copy => cases h

/-- Nor does a quiet call that fails. -/
theorem DiskEffect.Quiet.content_partialRun (h : e.Quiet) (f : Option Nat) (x : Loc) :
    (e.partialRun now f t).content x = t.content x := by
  cases e with
  | mkdirAll l =>
    cases f with
    | none => rfl
    | some n => exact Lib.FileTree.content_mkdirs x (l.take n) [] t
  | removeDir | setPrivateDir | setMode | setFileMtime | sync => rfl
  | removeFile | rename | createPrivate | append | copy => cases h

/-- A change of no content is allowed. -/
theorem Keeps.of_eq {op : DiskOp} (h : ∀ x, t'.content x = t.content x)
    (htouches : op.touches t = []) : Keeps allowed op t t' :=
  ⟨fun x => .inl (h x), by simp [htouches], fun x target hl => by rwa [h x] at hl⟩

/-- A change of the content at one place, to no link, is allowed when the place may change so. -/
theorem Keeps.of_place {op : DiskOp} (h : ∀ x, t'.content x = t.content x ∨ x = l ∧
      allowed l (t'.content l) ∧ ∀ target, t'.content l ≠ some (.link target))
    (hl : ∃ c, allowed l c) (htouches : ∀ x ∈ op.touches t, x = l) : Keeps allowed op t t' := by
  refine ⟨fun x => ?_, fun x hx => htouches x hx ▸ hl, fun x target hlink => ?_⟩
  · rcases h x with heq | ⟨rfl, hc, -⟩
    · exact .inl heq
    · exact .inr hc
  · rcases h x with heq | ⟨rfl, -, hno⟩
    · rwa [heq] at hlink
    · exact absurd hlink (hno target)

/-- Quiet calls meet every contract. -/
theorem DiskEffect.Quiet.meets (h : e.Quiet) : e.Meets now allowed t := by
  have htouches : (DiskOp.effect e).touches t = [] := by
    cases e with
    | mkdirAll | setPrivateDir | removeDir | setMode | setFileMtime | sync => rfl
    | removeFile | rename | createPrivate | append | copy => cases h
  exact ⟨.of_eq h.content_run htouches, fun f => .of_eq (h.content_partialRun f) htouches⟩

/-- A call that has failed without doing anything. -/
theorem Keeps.refl {op : DiskOp} (htouches : ∀ x ∈ op.touches t, ∃ c, allowed x c) :
    Keeps allowed op t t :=
  ⟨fun _ => .inl rfl, htouches, fun _ _ hl => hl⟩

/-- A call touches what it targets. -/
theorem mem_targets (hx : x ∈ (DiskOp.effect e).touches t) : x ∈ e.targets t :=
  List.mem_of_mem_filter hx

/-- The location a real path leads to is the path. -/
theorem eq_of_mem_at (hl : t.Real l) (hx : x ∈ DiskEffect.targets.at_ t false l) : x = l := by
  unfold DiskEffect.targets.at_ at hx
  split at hx
  · rename_i y hy
    rw [List.mem_singleton.mp hx, hl.eq_of_locate hy]
  · cases hx

/-- The location a plain path leads to is the path. -/
theorem eq_of_mem_cons_at (hl : t.Plain l) (hx : x ∈ l :: DiskEffect.targets.at_ t true l) : x = l := by
  rcases List.mem_cons.mp hx with h | hx
  · exact h
  unfold DiskEffect.targets.at_ at hx
  split at hx
  · rename_i y hy
    rw [List.mem_singleton.mp hx, hl.eq_of_locate hy]
  · cases hx

/-- Removing what is at a real path. -/
theorem meets_removeFile (hl : t.Real l) (ha : allowed l none) :
    (DiskEffect.removeFile l).Meets now allowed t := by
  have htouches : ∀ x ∈ (DiskOp.effect (.removeFile l)).touches t, x = l :=
    fun x hx => eq_of_mem_at hl (mem_targets hx)
  refine ⟨.of_place (fun x => ?_) ⟨_, ha⟩ htouches, fun f => .refl fun x hx => htouches x hx ▸ ⟨_, ha⟩⟩
  rcases Lib.FileTree.content_unlink t l x with h | ⟨hloc, h⟩
  · exact .inl h
  · obtain rfl := hl.eq_of_locate hloc
    exact .inr ⟨rfl, h ▸ ha, by rw [DiskEffect.run, h]; nofun⟩

/-- Making or emptying a file at a plain path. -/
theorem meets_createPrivate (hl : t.Plain l) (ha : allowed l (some (.file []))) :
    (DiskEffect.createPrivate l).Meets now allowed t := by
  have htouches : ∀ x ∈ (DiskOp.effect (.createPrivate l)).touches t, x = l :=
    fun x hx => eq_of_mem_cons_at hl (mem_targets hx)
  refine ⟨.of_place (fun x => ?_) ⟨_, ha⟩ htouches, fun f => .refl fun x hx => htouches x hx ▸ ⟨_, ha⟩⟩
  rcases Lib.FileTree.content_write t l x [] (fun old => ⟨(old.map (·.mode)).getD 0o600, now⟩) with
    h | ⟨hloc, h⟩
  · exact .inl h
  · obtain rfl := hl.eq_of_locate hloc
    exact .inr ⟨rfl, by rw [DiskEffect.run, h]; exact ha, by rw [DiskEffect.run, h]; nofun⟩

/-- Writing to the end of the file at a plain path. -/
theorem meets_append {data : Bytes} (hl : t.Plain l) (ha : ∀ b, allowed l (some (.file b))) :
    (DiskEffect.append l data).Meets now allowed t := by
  have htouches : ∀ x ∈ (DiskOp.effect (.append l data)).touches t, x = l :=
    fun x hx => eq_of_mem_cons_at hl (mem_targets hx)
  have hupdate : ∀ (f : List UInt8 → Attr → List UInt8 × Attr) (x : Loc),
      (t.update l f).2.content x = t.content x ∨ x = l ∧ allowed l ((t.update l f).2.content l) ∧
        ∀ target, (t.update l f).2.content l ≠ some (.link target) := by
    intro f x
    rcases Lib.FileTree.content_update t l x f with h | ⟨hloc, data, attr, -, h⟩
    · exact .inl h
    · obtain rfl := hl.eq_of_locate hloc
      exact .inr ⟨rfl, h ▸ ha _, by rw [h]; nofun⟩
  refine ⟨.of_place (hupdate _) ⟨_, ha []⟩ htouches, fun f => ?_⟩
  cases f with
  | none => exact .refl fun x hx => htouches x hx ▸ ⟨_, ha []⟩
  | some n => exact .of_place (hupdate _) ⟨_, ha []⟩ htouches

/-- Copying to a plain path. -/
theorem meets_copy {src : Loc} (hl : t.Plain l) (ha : ∀ b, allowed l (some (.file b))) :
    (DiskEffect.copy src l).Meets now allowed t := by
  have htouches : ∀ x ∈ (DiskOp.effect (.copy src l)).touches t, x = l :=
    fun x hx => eq_of_mem_cons_at hl (mem_targets hx)
  have hwrite : ∀ (data : List UInt8) (attr : Option Attr → Attr) (x : Loc),
      (t.write l data attr).2.content x = t.content x ∨ x = l ∧
        allowed l ((t.write l data attr).2.content l) ∧
        ∀ target, (t.write l data attr).2.content l ≠ some (.link target) := by
    intro data attr x
    rcases Lib.FileTree.content_write t l x data attr with h | ⟨hloc, h⟩
    · exact .inl h
    · obtain rfl := hl.eq_of_locate hloc
      exact .inr ⟨rfl, h ▸ ha _, by rw [h]; nofun⟩
  have hrefl : Keeps allowed (.effect (.copy src l)) t t :=
    .refl fun x hx => htouches x hx ▸ ⟨_, ha []⟩
  constructor
  · dsimp only [DiskEffect.run]
    split
    · exact .of_place (hwrite _ _) ⟨_, ha []⟩ htouches
    · exact hrefl
  · intro f
    cases f with
    | none => exact hrefl
    | some n =>
      dsimp only [DiskEffect.partialRun]
      split
      · exact .of_place (hwrite _ _) ⟨_, ha []⟩ htouches
      · exact hrefl

/-- Moving a file from one real path to another. -/
theorem meets_rename {src : Loc} (hs : t.Real src) (hl : t.Real l)
    (hno : ∀ target, t.content src ≠ some (.link target)) (hsrc : allowed src none)
    (hdst : allowed l (t.content src)) : (DiskEffect.rename src l).Meets now allowed t := by
  have htouches : ∀ x ∈ (DiskOp.effect (.rename src l)).touches t, ∃ c, allowed x c := by
    intro x hx
    rcases List.mem_append.mp (mem_targets hx) with hx | hx
    · exact eq_of_mem_at hs hx ▸ ⟨_, hsrc⟩
    · exact eq_of_mem_at hl hx ▸ ⟨_, hdst⟩
  have hcases := fun x => Lib.FileTree.content_rename t src l x
  refine ⟨⟨fun x => ?_, htouches, fun x target hlink => ?_⟩, fun f => .refl htouches⟩
  · rcases hcases x with h | ⟨hloc, h⟩ | ⟨hloc, y, hy, h⟩
    · exact .inl h
    · obtain rfl := hs.eq_of_locate hloc
      exact .inr (by rw [DiskEffect.run, h]; exact hsrc)
    · obtain rfl := hl.eq_of_locate hloc
      obtain rfl := hs.eq_of_locate hy
      exact .inr (by rw [DiskEffect.run, h]; exact hdst)
  · rw [DiskEffect.run] at hlink
    rcases hcases x with h | ⟨-, h⟩ | ⟨-, y, hy, h⟩
    · rwa [h] at hlink
    · rw [h] at hlink
      cases hlink
    · obtain rfl := hs.eq_of_locate hy
      rw [h] at hlink
      exact absurd hlink (hno target)

end

/-! ## Rules for calls -/

section
variable {source : Text → Option Bytes} {now : Int × Int} {A : Type} {act : A → Tree → Option Tree}
  {S : Loc → Prop} {assume : DiskOp → Tree → Prop} {allowed : Loc → Option (Content Text) → Prop}
  {e : DiskEffect} {P Q : Tree → Prop} {t : Tree} {l : Loc}

/-- A call whose outcome the program looks at. -/
theorem spec_attempt {α : Type} {Q : α → Tree → Prop} {k : Except Errno Unit → DiskProg α}
    (hP : Stable S P) (h : P t) (hm : ∀ t, P t → e.Meets now allowed t)
    (hrun : ∀ t, P t → Spec (disk source now A act) S assume allowed Q (k (e.run now t).1)
      (e.run now t).2)
    (hfault : ∀ t f, P t → Spec (disk source now A act) S assume allowed Q (k (.error .other))
      (e.partialRun now f t)) :
    Spec (disk source now A act) S assume allowed Q (attempt e >>= k) t := by
  intro t' hr _ out hout
  have h' := hP t t' hr h
  cases hout with
  | exec => exact ⟨(hm t' h').exec, hrun t' h'⟩
  | fault f => exact ⟨(hm t' h').fault f, hfault t' f h'⟩

/-- A call that must succeed. -/
theorem spec_must (hP : Stable S P) (h : P t) (hm : ∀ t, P t → e.Meets now allowed t)
    (hQ : Stable S Q) (hrun : ∀ t, P t → (e.run now t).1 = .ok () → Q (e.run now t).2) :
    Spec (disk source now A act) S assume allowed (fun _ => Q) (must e) t := by
  refine spec_attempt hP h hm (fun t h => ?_) fun _ _ _ => trivial
  cases hr : (e.run now t).1 with
  | ok => exact fun t' hc => hQ _ t' hc (hrun t h hr)
  | error => trivial

/-- A call whose failure is ignored. -/
theorem spec_ignore (hP : Stable S P) (h : P t) (hm : ∀ t, P t → e.Meets now allowed t)
    (hQ : Stable S Q) (hrun : ∀ t, P t → Q (e.run now t).2)
    (hfault : ∀ t f, P t → Q (e.partialRun now f t)) :
    Spec (disk source now A act) S assume allowed (fun _ => Q) (ignore e) t :=
  spec_attempt hP h hm (fun t h t' hc => hQ _ t' hc (hrun t h))
    fun t f h t' hc => hQ _ t' hc (hfault t f h)

/-- A quiet call keeps every assertion that others keep. -/
theorem Stable.run (hP : Stable S P) (hq : e.Quiet) (h : P t) : P (e.run now t).2 :=
  hP _ _ (.of_eq hq.content_run) h

theorem Stable.partialRun (hP : Stable S P) (hq : e.Quiet) (f : Option Nat) (h : P t) :
    P (e.partialRun now f t) :=
  hP _ _ (.of_eq (hq.content_partialRun f)) h

/-- A quiet call that must succeed. -/
theorem spec_must_quiet (hq : e.Quiet) (hP : Stable S P) (h : P t) :
    Spec (disk source now A act) S assume allowed (fun _ => P) (must e) t :=
  spec_must hP h (fun _ _ => hq.meets) hP fun _ h _ => hP.run hq h

/-- A quiet call whose failure is ignored. -/
theorem spec_ignore_quiet (hq : e.Quiet) (hP : Stable S P) (h : P t) :
    Spec (disk source now A act) S assume allowed (fun _ => P) (ignore e) t :=
  spec_ignore hP h (fun _ _ => hq.meets) hP (fun _ h => hP.run hq h) fun _ f h => hP.partialRun hq f h

/-- An assertion that others and all allowed changes keep is kept by a program. -/
theorem Spec.keep {α : Type} {Q : α → Tree → Prop} {p : DiskProg α} {I : Tree → Prop}
    (h : Spec (disk source now A act) S assume allowed Q p t) (hI : Stable S I)
    (hkeep : ∀ t t', Changes allowed t t' → NoNewLinks t t' → I t → I t') (hi : I t) :
    Spec (disk source now A act) S assume allowed (fun a t => Q a t ∧ I t) p t :=
  Lib.wp_invariant (fun _ _ _ ha => ha) (fun t t' hr hi => ⟨hr, hI t t' hr hi⟩)
    (fun _ t t' hi _ hg => ⟨hkeep t t' hg.changes hg.links hi, hg⟩) h hi

/-- A finished program. -/
theorem spec_done {α : Type} {Q : α → Tree → Prop} {a : α} (hQ : Stable S (Q a)) (h : Q a t) :
    Spec (disk source now A act) S assume allowed Q (.done a) t :=
  fun t' hc => hQ t t' hc h

/-! ## Links -/

/-- No link stands at or above the places. -/
def Unlinked (places : List Loc) (t : Tree) : Prop := ∀ l ∈ places, t.Plain l

theorem stable_unlinked (places : List Loc) : Stable S (Unlinked places) :=
  fun t t' hc h l hl => stable_plain l t t' hc (h l hl)

/-- A program that makes no link keeps places unlinked. -/
theorem Unlinked.mono {places : List Loc} {t' : Tree} (h : Unlinked places t)
    (hlinks : NoNewLinks t t') : Unlinked places t' := fun l hl => (h l hl).mono hlinks

/-- No program makes a link. -/
theorem Spec.unlinked {α : Type} {Q : α → Tree → Prop} {p : DiskProg α} {places : List Loc}
    (h : Spec (disk source now A act) S assume allowed Q p t) (hi : Unlinked places t) :
    Spec (disk source now A act) S assume allowed (fun a t => Q a t ∧ Unlinked places t) p t :=
  h.keep (stable_unlinked places) (fun _ _ _ hlinks hi => hi.mono hlinks) hi

/-- What is in a plain directory is at a real path. -/
theorem real_concat (h : t.Plain l) (name : Text) : t.Real (l ++ [name]) := by
  intro d hd hne
  rcases List.prefix_concat_iff.mp hd with rfl | hd
  · exact absurd rfl hne
  · exact h d hd

/-- The directories above a location are its proper prefixes. -/
theorem mem_dirsAbove {d : Loc} : d ∈ dirsAbove l ↔ d <+: l ∧ d ≠ [] ∧ d ≠ l := by
  simp [dirsAbove]

/-- A location whose proper prefixes are no links, each if those before it are none, is real. -/
theorem real_of_dirsAbove (h : ∀ d ∈ dirsAbove l, t.Real d → ∀ target, t.content d ≠ some (.link target)) :
    t.Real l := by
  have hall : ∀ n (d : Loc), d.length ≤ n → d <+: l → d ≠ l → ∀ target,
      t.content d ≠ some (.link target) := by
    intro n
    induction n with
    | zero =>
      intro d hd _ _ target
      rw [List.length_eq_zero_iff.mp (Nat.le_zero.mp hd), t.content_root]
      nofun
    | succ n ih =>
      intro d hd hpre hne target
      by_cases hnil : d = []
      · rw [hnil, t.content_root]
        nofun
      · refine h d (mem_dirsAbove.mpr ⟨hpre, hnil, hne⟩) (fun d' hd' hne' => ?_) target
        have hlt : d'.length < d.length := by
          rcases Nat.lt_or_ge d'.length d.length with h | h
          · exact h
          · exact absurd (hd'.eq_of_length_le h) hne'
        have hlen := hpre.length_le
        exact ih d' (by omega) (hd'.trans hpre) (by rintro rfl; omega)
  exact fun d hd hne => hall d.length d le_rfl hd hne

/-- A link at the end of a real path is what `lstat` finds. -/
theorem lstat_of_link {target : List (Lib.Hop Text)} (hl : t.Real l)
    (hlink : t.content l = some (.link target)) : t.lstat l = .ok (.link target) := by
  have hnode := Lib.FileTree.content_eq_link_iff.mp hlink
  have hnil : l ≠ [] := by
    rintro rfl
    rw [t.root] at hnode
    cases hnode
  unfold Lib.FileTree.lstat
  rcases hl.locate with hloc | ⟨e, hloc, hnone⟩
  · simp [hloc, hnil, hnode]
  · rw [hnone] at hnode
    cases hnode

/-- **`ensure_real_ancestors` returns only when no directory above the destination is a link**,
whatever else its contract says. -/
theorem wp_ensureRealAncestors {C : Lib.Contract Tree DiskOp}
    (hlstat : ∀ d t, C.guarantee (.lstat d) t t)
    (hlinks : ∀ t t', C.rely t t' →
      ∀ x target, t'.content x = some (.link target) ↔ t.content x = some (.link target))
    (hP : ∀ t t', C.rely t t' → P t → P t') (h : P t) :
    Lib.wp (disk source now A act) C (fun _ t => P t ∧ t.Real l) (ensureRealAncestors l) t := by
  -- What is known of the directories that have been looked at.
  let I : List Loc → Tree → Prop := fun ds t => P t ∧ ∀ d ∈ dirsAbove l, d ∉ ds → t.Real d →
    ∀ target, t.content d ≠ some (.link target)
  have hstable : ∀ ds t t', I ds t → C.rely t t' → I ds t' := by
    refine fun ds t t' hi hr => ⟨hP t t' hr hi.1, fun d hd hds hreal target hl => ?_⟩
    refine hi.2 d hd hds (fun x hx hne tg hlx => ?_) target ((hlinks t t' hr d target).mp hl)
    exact hreal x hx hne tg ((hlinks t t' hr x tg).mpr hlx)
  refine Lib.wp_mono (Lib.wp_forM (I := I) hstable
    (fun d ds t hi => ?_) ⟨h, fun d hd hds => absurd hd hds⟩)
    fun _ t hi => ⟨hi.1, real_of_dirsAbove fun d hd => hi.2 d hd List.not_mem_nil⟩
  intro t' hr _ out hout
  have hi' := hstable _ t t' hi hr
  have hnext : (∀ target, t'.lstat d ≠ .ok (.link target)) →
      Lib.wp (disk source now A act) C (fun _ => I ds) (.done () : DiskProg Unit) t' := by
    refine fun hno t'' hr' => hstable ds t' t'' ⟨hi'.1, fun x hx hxs hreal target hl => ?_⟩ hr'
    by_cases hxd : x = d
    · subst hxd
      exact hno target (lstat_of_link hreal hl)
    · exact hi'.2 x hx (by simp [hxd, hxs]) hreal target hl
  cases hout with
  | exec =>
    refine ⟨hlstat d t', ?_⟩
    dsimp only [disk]
    cases hlstat : t'.lstat d with
    | ok node =>
      cases node with
      | link target => trivial
      | dir | file | other => exact hnext (by simp [hlstat])
    | error e =>
      cases e with
      | notFound => exact hnext (by simp [hlstat])
      | _ => trivial
  | fault f => exact ⟨hlstat d t', trivial⟩

/-- Against the contract of the disk programs. -/
theorem spec_ensureRealAncestors (hP : Stable S P) (h : P t) :
    Spec (disk source now A act) S assume allowed (fun _ t => P t ∧ t.Real l) (ensureRealAncestors l)
      t :=
  wp_ensureRealAncestors (C := diskContract S assume allowed) (fun _ _ => .refl nofun)
    (fun _ _ hc => hc.link) hP h

/-! ## The apply -/

/-- A file of the tree is deleted, or was gone. -/
theorem spec_deleteFile {rel : Text} (ha : allowed (loc rel) none) :
    Spec (disk source now A act) S assume allowed (fun _ _ => True) (deleteFile rel) t := by
  refine Lib.wp_bind (Lib.wp_mono (spec_ensureRealAncestors stable_true trivial) fun _ t h => ?_)
  have hprune : ∀ (ds : List Loc) (t : Tree), Spec (disk source now A act) S assume allowed
      (fun _ _ => True) (pruneDirs ds) t := by
    intro ds
    induction ds with
    | nil => exact fun t => spec_done stable_true trivial
    | cons d ds ih =>
      refine fun t => spec_attempt stable_true trivial (fun _ _ => DiskEffect.Quiet.meets trivial)
        (fun t _ => ?_) fun t _ _ => spec_done stable_true trivial
      cases (DiskEffect.run now (.removeDir d) t).1 with
      | ok => exact ih _
      | error => exact spec_done stable_true trivial
  refine Lib.wp_bind (Lib.wp_mono (Q := fun _ _ => True) ?_ fun _ t _ => hprune _ t)
  refine spec_attempt (stable_real (loc rel)) h.2 (fun _ hr => meets_removeFile hr ha) (fun t _ => ?_)
    fun _ _ _ => trivial
  cases (DiskEffect.run now (.removeFile (loc rel)) t).1 with
  | ok => exact spec_done stable_true trivial
  | error e =>
    cases e with
    | notFound => exact spec_done stable_true trivial
    | _ => trivial

/-- The staging directory is emptied as far as possible. -/
theorem spec_cleanStaging (ha : ∀ name, allowed (stagingDir ++ [name]) none)
    (h : t.Plain stagingDir) :
    Spec (disk source now A act) S assume allowed (fun _ _ => True) cleanStaging t := by
  have hstable : Stable S fun t => t.Plain stagingDir := stable_plain stagingDir
  intro t' hr _ out hout
  have h' := hstable t t' hr h
  have hkeep : Keeps allowed (.readDir stagingDir) t' t' := .refl fun x hx => by cases hx
  have hloop : ∀ names : List Text, Spec (disk source now A act) S assume allowed (fun _ _ => True)
      (forM names fun name => ignore (.removeFile (stagingDir ++ [name]))) t' := by
    intro names
    refine Lib.wp_mono (Lib.wp_forM (I := fun _ t => t.Plain stagingDir) (fun _ t t' hi hr =>
      hstable t t' hr hi) (fun name names t hi => ?_) h') fun _ _ _ => trivial
    have hmeets : ∀ t, t.Plain stagingDir →
        (DiskEffect.removeFile (stagingDir ++ [name])).Meets now allowed t :=
      fun t ht => meets_removeFile (real_concat ht name) (ha name)
    exact spec_ignore hstable hi hmeets hstable (fun t ht => ht.mono (hmeets t ht).exec.links)
      fun t f ht => ht.mono ((hmeets t ht).fault f).links
  cases hout with
  | exec =>
    refine ⟨hkeep, ?_⟩
    dsimp only [disk]
    cases t'.readDir stagingDir with
    | ok names => exact hloop names
    | error => exact spec_done stable_true trivial
  | fault f => exact ⟨hkeep, spec_done stable_true trivial⟩

/-- One more chunk. -/
theorem assemble_concat {hashes : List Text} {hash : Text} {b data : Bytes}
    (h : assemble source hashes = some b) (hd : source hash = some data) :
    assemble source (hashes ++ [hash]) = some (b ++ data) := by
  obtain ⟨bs, hbs, rfl⟩ := Option.map_eq_some_iff.mp h
  rw [assemble, List.mapM_append, hbs]
  simp [hd]

/-- A file at a plain path holds some bytes. -/
def Holds (l : Loc) (b : Bytes) (t : Tree) : Prop := t.Plain l ∧ t.content l = some (.file b)

theorem stable_holds (hS : S l) (b : Bytes) : Stable S (Holds l b) :=
  (stable_plain l).and (stable_content hS _)

/-- A file that was made private is empty. -/
theorem spec_createPrivate (hS : S l) (hP : Stable S P) (h : P t) (hplain : ∀ t, P t → t.Plain l)
    (ha : allowed l (some (.file []))) :
    Spec (disk source now A act) S assume allowed (fun _ => Holds l []) (must (.createPrivate l)) t := by
  have hmeets : ∀ t, P t → (DiskEffect.createPrivate l).Meets now allowed t :=
    fun t h => meets_createPrivate (hplain t h) ha
  exact spec_must hP h hmeets (stable_holds hS []) fun t h hr =>
    ⟨(hplain t h).mono (hmeets t h).exec.links, Lib.FileTree.content_write_self (hplain t h) hr⟩

/-- Bytes written to the end of a file are there. -/
theorem spec_append {b data : Bytes} (hS : S l) (h : Holds l b t)
    (ha : ∀ b, allowed l (some (.file b))) :
    Spec (disk source now A act) S assume allowed (fun _ => Holds l (b ++ data))
      (must (.append l data)) t := by
  have hmeets : ∀ t, Holds l b t → (DiskEffect.append l data).Meets now allowed t :=
    fun t h => meets_append h.1 ha
  refine spec_must (stable_holds hS b) h hmeets (stable_holds hS _) fun t h hr =>
    ⟨h.1.mono (hmeets t h).exec.links, ?_⟩
  exact Lib.FileTree.content_update_self h.1 (fun _ _ => rfl) h.2 hr ⟨0, now⟩

/-- The chunks of an entry are written to the end of a file. -/
theorem spec_appendChunks {rel : Text} {hashes : List Text} (hS : S l) (h : Holds l [] t)
    (ha : ∀ b, allowed l (some (.file b))) :
    Spec (disk source now A act) S assume allowed
      (fun _ t => ∃ b, assemble source hashes = some b ∧ Holds l b t) (appendChunks l rel hashes) t := by
  let I : List Text → Tree → Prop := fun rest t =>
    ∃ written b, written ++ rest = hashes ∧ assemble source written = some b ∧ Holds l b t
  refine Lib.wp_mono (Lib.wp_forM (I := I) ?_ (fun hash rest t hi => ?_) ⟨[], [], rfl, rfl, h⟩) ?_
  · rintro rest t t' ⟨written, b, hw, hb, hold⟩ hr
    exact ⟨written, b, hw, hb, stable_holds hS b t t' hr hold⟩
  · obtain ⟨written, b, hw, hb, hold⟩ := hi
    intro t' hr _ out hout
    have hold' := stable_holds hS b t t' hr hold
    have hkeep : Keeps allowed (.getChunk hash) t' t' := .refl fun x hx => by cases hx
    cases hout with
    | exec =>
      refine ⟨hkeep, ?_⟩
      dsimp only [disk]
      cases hsource : source hash with
      | none => trivial
      | some data =>
        refine Lib.wp_mono (spec_append hS hold' ha) fun _ t h => ?_
        exact ⟨written ++ [hash], b ++ data, by simpa using hw, assemble_concat hb hsource, h⟩
    | fault f => exact ⟨hkeep, trivial⟩
  · rintro _ t ⟨written, b, hw, hb, hold⟩
    rw [List.append_nil] at hw
    exact ⟨b, hw ▸ hb, hold⟩

/-- What staging and moving an entry may change: the staging file, and the file the entry is for, which
gets its bytes. -/
structure MayWrite (source : Text → Option Bytes) (allowed : Loc → Option (Content Text) → Prop)
    (tag : Text → Text) (rel : Text) (entry : FileEntry) : Prop where
  staged : ∀ c, allowed (stagePath tag rel) c
  dest : ∀ b, assemble source entry.chunks = some b → allowed (loc rel) (some (.file b))

/-- A staged file is below `.pear`. -/
theorem pearLoc_prefix_stagePath (tag : Text → Text) (rel : Text) : pearLoc <+: stagePath tag rel :=
  ⟨["staging".toList, "stage-".toList ++ tag rel ++ ".tmp".toList], rfl⟩

/-- **A file gets its entry's bytes at once**, by a rename. -/
theorem spec_writeFile {tag : Text → Text} {rel : Text} {entry : FileEntry}
    (hS : S (stagePath tag rel)) (ha : MayWrite source allowed tag rel entry)
    (h : t.Plain (stagePath tag rel)) :
    Spec (disk source now A act) S assume allowed (fun _ _ => True) (writeFile tag rel entry) t := by
  refine Lib.wp_bind (Lib.wp_mono (spec_createPrivate hS (stable_plain _) h (fun _ h => h)
    (ha.staged _)) fun _ t h => ?_)
  refine Lib.wp_bind (Lib.wp_mono (spec_appendChunks hS h fun b => ha.staged _) fun _ t h => ?_)
  obtain ⟨b, hb, h⟩ := h
  have hstable := stable_holds hS b
  refine Lib.wp_bind (Lib.wp_mono (spec_must_quiet trivial hstable h) fun _ t h => ?_)
  refine Lib.wp_bind (Lib.wp_mono (spec_ensureRealAncestors hstable h) fun _ t h => ?_)
  have hstable' := hstable.and (stable_real (loc rel))
  refine Lib.wp_bind (Lib.wp_mono (spec_must_quiet trivial hstable' h) fun _ t h => ?_)
  refine Lib.wp_bind (Lib.wp_mono (spec_must hstable' h (Q := fun _ => True) (fun t h => ?_) stable_true
    fun _ _ _ => trivial) fun _ t _ => ?_)
  · refine meets_rename h.1.1.real h.2 ?_ (ha.staged _) (h.1.2 ▸ ha.dest b hb)
    rw [h.1.2]
    nofun
  · exact spec_must_quiet trivial stable_true trivial

end

end Pear
