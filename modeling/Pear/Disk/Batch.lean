import Pear.Lib.Nodes
import Pear.Disk.Inside

/-!
# What the programs of an apply have done

Specifications of what the programs of `apply_commit` have done when they return, calls that failed
and were ignored included. A batch of deletes and writes is described by the leaves it leaves
(`Batch`): the deleted places hold none, the written ones their entries' files, and all others but
those of the staging directory what they held. Batches at different places compose (`Batch.trans`).
The contract (`Within`) says where nodes may change on the way, directories included; a call changes
them only where it acts (`DiskEffect.confined`).
-/

namespace Pear

open Lib (Errno Node Attr Content)

/-! ## Where nodes change -/

/-- The contract: nodes change only in a region. -/
def regionContract (R : Loc → Prop) : Lib.Contract Tree DiskOp :=
  .alone fun _ t t' => ∀ x, ¬ R x → t'.nodes[x]? = t.nodes[x]?

/-- What a program does that changes nodes only in a region, with nobody else around. -/
abbrev Within {α : Type} (source : Text → Option Bytes) (now : Int × Int) (R : Loc → Prop)
    (Q : α → Tree → Prop) (p : DiskProg α) (t : Tree) : Prop :=
  Lib.wp (disk source now Empty nofun) (regionContract R) Q p t

/-- A call changes nodes only in a region, whether it fails or not. -/
structure DiskEffect.Confined (now : Int × Int) (R : Loc → Prop) (e : DiskEffect) (t : Tree) :
    Prop where
  run : ∀ x, ¬ R x → (e.run now t).2.nodes[x]? = t.nodes[x]?
  partialRun : ∀ f x, ¬ R x → (e.partialRun now f t).nodes[x]? = t.nodes[x]?

/-- The places with a leaf that is not what it was. -/
def KeepsLeaves (S : Loc → Prop) (t t' : Tree) : Prop := ∀ x, ¬ S x → t'.leaf x = t.leaf x

section
variable {source : Text → Option Bytes} {now : Int × Int} {R S S' : Loc → Prop} {e : DiskEffect}
  {t t' t'' : Tree} {l x : Loc}

/-- **Calls change nodes only where they act**, if no link is on the way. -/
theorem DiskEffect.confined (h : ∀ a ∈ e.acts t, (if a.1 then t.Plain a.2 else t.Real a.2) ∧ R a.2) :
    e.Confined now R t := by
  have hupdate : ∀ (l : Loc) (f : List UInt8 → Attr → List UInt8 × Attr), t.Plain l ∧ R l →
      ∀ x, ¬ R x → (t.update l f).2.nodes[x]? = t.nodes[x]? := by
    intro l f hl x hx
    refine (Lib.FileTree.nodes_update t l x f).resolve_right fun hloc => hx ?_
    exact hl.1.eq_of_locate hloc ▸ hl.2
  have hwrite : ∀ (l : Loc) (data : Bytes) (attr : Option Attr → Attr), t.Plain l ∧ R l →
      ∀ x, ¬ R x → (t.write l data attr).2.nodes[x]? = t.nodes[x]? := by
    intro l data attr hl x hx
    refine (Lib.FileTree.nodes_write t l x data attr).resolve_right fun hloc => hx ?_
    exact hl.1.eq_of_locate hloc ▸ hl.2
  cases e with
  | mkdirAll l =>
    -- The directories that are missing are acted on, so the path is plain.
    have hmade : ∀ d, d <+: l → t.isDir d = false → t.Plain d ∧ R d := fun d hd hdir =>
      h (true, d) (List.mem_map_of_mem (List.mem_filter.mpr ⟨(List.mem_inits _ _).mpr hd, by simp [hdir]⟩))
    have hplain : t.Plain l := by
      by_cases hdir : t.isDir l = true
      · rcases Bool.or_eq_true_iff.mp hdir with hl | hl
        · rw [of_decide_eq_true hl]
          intro d hd target
          rw [List.prefix_nil.mp hd, t.content_root]
          exact (Option.some_ne_none _).symm
        · exact plain_of_dir (of_decide_eq_true hl)
      · exact (hmade l (List.prefix_refl l) (Bool.eq_false_iff.mpr hdir)).1
    have hall : ∀ n x, ¬ R x → (t.mkdirs [] (l.take n)).2.nodes[x]? = t.nodes[x]? := by
      intro n x hx
      have hpre : l.take n <+: l := List.take_prefix n l
      rcases Lib.FileTree.nodes_mkdirs (x := x) (l.take n) [] t fun d hd => hplain d (hd.trans hpre)
        with hsame | ⟨d, hd, hne, rfl⟩
      · exact hsame
      · refine Lib.FileTree.nodes_mkdirs_of_ne_none (l.take n) [] fun hnone => hx ?_
        exact (hmade _ (hd.trans hpre) (by simp [Lib.FileTree.isDir, hne, hnone])).2
    refine ⟨fun x hx => ?_, fun f x hx => ?_⟩
    · have := hall l.length x hx
      rwa [List.take_length] at this
    · cases f with
      | none => rfl
      | some n => exact hall n x hx
  | setPrivateDir l | setMode l | setFileMtime l =>
    exact ⟨hupdate l _ (h (true, l) List.mem_cons_self), fun _ _ _ => rfl⟩
  | createPrivate l => exact ⟨hwrite l _ _ (h (true, l) List.mem_cons_self), fun _ _ _ => rfl⟩
  | append l data =>
    have hl : t.Plain l ∧ R l := h (true, l) List.mem_cons_self
    refine ⟨hupdate l _ hl, fun f x hx => ?_⟩
    cases f with
    | none => rfl
    | some n => exact hupdate l _ hl x hx
  | copy src dst =>
    have hdst : t.Plain dst ∧ R dst := h (true, dst) List.mem_cons_self
    refine ⟨fun x hx => ?_, fun f x hx => ?_⟩
    · dsimp only [DiskEffect.run]
      split
      · exact hwrite dst _ _ hdst x hx
      · rfl
    · cases f with
      | none => rfl
      | some n =>
        dsimp only [DiskEffect.partialRun]
        split
        · exact hwrite dst _ _ hdst x hx
        · rfl
  | removeFile l =>
    have hl : t.Real l ∧ R l := h (false, l) List.mem_cons_self
    refine ⟨fun x hx => ?_, fun _ _ _ => rfl⟩
    refine (Lib.FileTree.nodes_unlink t l x).resolve_right fun hloc => hx ?_
    exact hl.1.eq_of_locate hloc ▸ hl.2
  | removeDir l =>
    have hl : t.Real l ∧ R l := h (false, l) List.mem_cons_self
    refine ⟨fun x hx => ?_, fun _ _ _ => rfl⟩
    refine (Lib.FileTree.nodes_rmdir t l x).resolve_right fun hloc => hx ?_
    exact hl.1.eq_of_locate hloc ▸ hl.2
  | rename src dst =>
    have hsrc : t.Real src ∧ R src := h (false, src) List.mem_cons_self
    have hdst : t.Real dst ∧ R dst := h (false, dst) (List.mem_cons_of_mem _ List.mem_cons_self)
    refine ⟨fun x hx => ?_, fun _ _ _ => rfl⟩
    refine (Lib.FileTree.nodes_rename t src dst x).resolve_right ?_
    rintro (hloc | hloc)
    · exact hx (hsrc.1.eq_of_locate hloc ▸ hsrc.2)
    · exact hx (hdst.1.eq_of_locate hloc ▸ hdst.2)
  | sync l => exact ⟨fun x _ => Lib.FileTree.nodes_update_same t l x, fun _ _ _ => rfl⟩

/-- A call that acts at one place, where links are followed or are not. -/
theorem DiskEffect.confined_at {follow : Bool} (hacts : e.acts t = [(follow, l)])
    (hl : if follow then t.Plain l else t.Real l) (hR : R l) : e.Confined now R t := by
  refine DiskEffect.confined fun a ha => ?_
  rw [hacts] at ha
  rw [List.mem_singleton.mp ha]
  exact ⟨hl, hR⟩

/-- Making the directories of a plain path. -/
theorem DiskEffect.confined_mkdirAll (hl : t.Plain l) (hR : ∀ d, d <+: l → d ≠ [] → R d) :
    (DiskEffect.mkdirAll l).Confined now R t := by
  refine DiskEffect.confined fun a ha => ?_
  obtain ⟨d, hd, rfl⟩ := List.mem_map.mp ha
  obtain ⟨hmem, hdir⟩ := List.mem_filter.mp hd
  have hpre : d <+: l := (List.mem_inits _ _).mp hmem
  refine ⟨fun x hx => hl x (hx.trans hpre), hR d hpre ?_⟩
  rintro rfl
  simp [Lib.FileTree.isDir] at hdir

/-- A rename of what is at a real place to another. -/
theorem DiskEffect.confined_rename {dst : Loc} (hl : t.Real l) (hdst : t.Real dst) (hR : R l)
    (hR' : R dst) : (DiskEffect.rename l dst).Confined now R t := by
  refine DiskEffect.confined fun a ha => ?_
  rcases List.mem_cons.mp ha with rfl | ha
  · exact ⟨hl, hR⟩
  · rw [List.mem_singleton.mp ha]
    exact ⟨hdst, hR'⟩

/-- A call that is confined keeps the leaves outside. -/
theorem DiskEffect.Confined.leaf (h : e.Confined now R t) : KeepsLeaves R t (e.run now t).2 :=
  fun x hx => Lib.FileTree.leaf_congr (h.run x hx)

theorem KeepsLeaves.trans (h : KeepsLeaves S t t') (h' : KeepsLeaves S t' t'') : KeepsLeaves S t t'' :=
  fun x hx => (h' x hx).trans (h x hx)

theorem KeepsLeaves.mono (h : KeepsLeaves S t t') (hS : ∀ x, S x → S' x) : KeepsLeaves S' t t' :=
  fun x hx => h x fun hs => hx (hS x hs)

theorem NoNewLinks.trans (h : NoNewLinks t t') (h' : NoNewLinks t' t'') : NoNewLinks t t'' :=
  fun x target hl => h x target (h' x target hl)

/-- Trees with the same leaves have the same links. -/
theorem noNewLinks_of_leaf (h : ∀ x, t'.leaf x = t.leaf x) : NoNewLinks t t' := by
  intro x target hl
  have hnode : t'.leaf x = some (.link target) :=
    Lib.FileTree.leaf_eq_some_iff.mpr ⟨Lib.FileTree.content_eq_link_iff.mp hl, nofun⟩
  rw [h x] at hnode
  exact Lib.FileTree.content_eq_link_iff.mpr (Lib.FileTree.leaf_eq_some_iff.mp hnode).1

/-- Calls that make or remove directories, or only flush. -/
def DiskEffect.OnDirs : DiskEffect → Prop
  | .mkdirAll _ | .removeDir _ | .sync _ => True
  | _ => False

/-- These keep all leaves. -/
theorem DiskEffect.OnDirs.leaf_run (h : e.OnDirs) (x : Loc) : (e.run now t).2.leaf x = t.leaf x := by
  cases e with
  | mkdirAll l => exact Lib.FileTree.leaf_mkdirs t l x
  | removeDir l => exact Lib.FileTree.leaf_rmdir t l x
  | sync l => exact Lib.FileTree.leaf_congr (Lib.FileTree.nodes_update_same t l x)
  | _ => cases h

/-! ## Rules -/

variable {α : Type} {Q : Tree → Prop}

/-- The end of a program. -/
theorem within_done {a : α} (h : Q t) : Within source now R (fun _ => Q) (.done a) t := by
  rintro _ rfl
  exact h

/-- A call whose outcome the program looks at. -/
theorem within_attempt {k : Except Errno Unit → DiskProg α} (h : e.Confined now R t)
    (hrun : Within source now R (fun _ => Q) (k (e.run now t).1) (e.run now t).2)
    (hfault : ∀ f, Within source now R (fun _ => Q) (k (.error .other)) (e.partialRun now f t)) :
    Within source now R (fun _ => Q) (attempt e >>= k) t := by
  rintro _ rfl - out hout
  cases hout with
  | exec => exact ⟨h.run, hrun⟩
  | fault f => exact ⟨h.partialRun f, hfault f⟩

/-- A call that must succeed. -/
theorem within_must (h : e.Confined now R t) (hQ : (e.run now t).1 = .ok () → Q (e.run now t).2) :
    Within source now R (fun _ => Q) (must e) t := by
  refine within_attempt h ?_ fun _ => trivial
  cases hr : (e.run now t).1 with
  | ok _ => exact within_done (hQ hr)
  | error errno => trivial

/-- A call whose failure is ignored. -/
theorem within_ignore (h : e.Confined now R t) (hQ : Q (e.run now t).2)
    (hfault : ∀ f, Q (e.partialRun now f t)) : Within source now R (fun _ => Q) (ignore e) t :=
  within_attempt h (within_done hQ) fun f => within_done (hfault f)

/-- The ancestors of a destination are looked at. -/
theorem within_ensureRealAncestors :
    Within source now R (fun _ t' => t' = t ∧ t'.Real l) (ensureRealAncestors l) t := by
  refine wp_ensureRealAncestors (C := regionContract R) (fun _ _ _ _ => rfl) ?_ ?_ rfl
  · rintro t _ rfl x target
    exact Iff.rfl
  · rintro t' _ rfl h
    exact h

/-! ## Files -/

/-- Since `t`, a file has come to stand at `l`, and only the places in `S` have changed. -/
structure Wrote (S : Loc → Prop) (l : Loc) (data : Bytes) (attr : Attr) (t t' : Tree) : Prop where
  links : NoNewLinks t t'
  leaf : t'.leaf l = some (.file data attr)
  kept : KeepsLeaves S t t'

variable {data : Bytes} {attr : Attr}

theorem Wrote.same (h : Wrote S l data attr t t') (hsame : ∀ x, t''.leaf x = t'.leaf x) :
    Wrote S l data attr t t'' where
  links := h.links.trans (noNewLinks_of_leaf hsame)
  leaf := (hsame l).trans h.leaf
  kept := fun x hx => (hsame x).trans (h.kept x hx)

/-- A place with a file at a real path is plain. -/
theorem Wrote.plain (h : Wrote S l data attr t t') (hreal : t'.Real l) : t'.Plain l := by
  refine hreal.plain fun target hl => ?_
  have hnode := Lib.FileTree.content_eq_link_iff.mp hl
  rw [(Lib.FileTree.leaf_eq_some_iff.mp h.leaf).1] at hnode
  cases hnode

/-- A file is created, or emptied. -/
theorem within_createPrivate (hplain : t.Plain l) (hR : R l) :
    Within source now R (fun _ t' => ∃ attr, Wrote (· = l) l [] attr t t') (must (.createPrivate l))
      t := by
  refine within_must (DiskEffect.confined_at rfl hplain hR) fun hr => ?_
  have hconfined : (DiskEffect.createPrivate l).Confined now (· = l) t :=
    DiskEffect.confined_at rfl hplain rfl
  obtain ⟨old, hnode⟩ := Lib.FileTree.nodes_write_self hplain hr
  exact ⟨_, DiskEffect.noNewLinks_run nofun, Lib.FileTree.leaf_eq_some_iff.mpr ⟨hnode, nofun⟩,
    hconfined.leaf⟩

/-- A file just written is changed. -/
theorem within_update {f : List UInt8 → Attr → List UInt8 × Attr}
    (hrun : ∀ t, e.run now t = t.update l f) (hacts : e.acts t' = [(true, l)])
    (hplain : t'.Plain l) (hR : R l) (hS : S l) (h : Wrote S l data attr t t') :
    Within source now R (fun _ => Wrote S l (f data attr).1 (f data attr).2 t) (must e) t' := by
  refine within_must (DiskEffect.confined_at hacts hplain hR) fun hr => ?_
  have hkept : KeepsLeaves S t' (e.run now t').2 := (DiskEffect.confined_at hacts hplain hS).leaf
  have hnode := (Lib.FileTree.leaf_eq_some_iff.mp h.leaf).1
  have hsrc : ∀ src dst, e = .rename src dst → t'.Plain src := by
    rintro src dst rfl
    cases hacts
  refine ⟨h.links.trans (DiskEffect.noNewLinks_run hsrc), ?_, h.kept.trans hkept⟩
  rw [hrun] at hr ⊢
  exact Lib.FileTree.leaf_eq_some_iff.mpr ⟨Lib.FileTree.nodes_update_self hplain hnode hr, nofun⟩

/-- The chunks of an entry are written to the end of a file. -/
theorem within_appendChunks {rel : Text} {hashes : List Text} (hplain : t.Plain l) (hR : R l)
    (hS : S l) : ∀ (written : List Text) {data : Bytes} {attr : Attr} {t' : Tree},
    assemble source written = some data → Wrote S l data attr t t' →
    Within source now R
      (fun _ t' => ∃ data attr, assemble source (written ++ hashes) = some data ∧
        Wrote S l data attr t t') (appendChunks l rel hashes) t' := by
  induction hashes with
  | nil =>
    intro written data attr t' hdata h
    exact within_done ⟨data, attr, by rwa [List.append_nil], h⟩
  | cons hash hashes ih =>
    intro written data attr t' hdata h
    refine Lib.wp_bind ?_
    rintro _ rfl - out hout
    cases hout with
    | exec =>
      refine ⟨fun _ _ => rfl, ?_⟩
      dsimp only [disk]
      cases hsource : source hash with
      | none => trivial
      | some more =>
        refine Lib.wp_mono (within_update (f := fun old attr => (old ++ more, { attr with mtime := now }))
          (fun _ => rfl) rfl (hplain.mono h.links) hR hS h) fun _ t' h => ?_
        rw [List.append_cons]
        exact ih _ (assemble_concat hdata hsource) h
    | fault f => exact ⟨fun _ _ => rfl, trivial⟩

/-- A file just written is moved to a real place. -/
theorem within_rename {dst : Loc} (hplain : t'.Plain l) (hdst : t'.Real dst) (hne : l ≠ dst)
    (hR : R l) (hR' : R dst) (hS : S l) (hS' : S dst) (h : Wrote S l data attr t t') :
    Within source now R (fun _ t'' => Wrote S dst data attr t t'' ∧ t''.Plain dst)
      (must (.rename l dst)) t' := by
  refine within_must (Q := fun t'' => Wrote S dst data attr t t'' ∧ t''.Plain dst)
    (DiskEffect.confined_rename hplain.real hdst hR hR') fun hr => ?_
  have hkept : KeepsLeaves S t' (DiskEffect.run now (.rename l dst) t').2 :=
    (DiskEffect.confined_rename hplain.real hdst hS hS').leaf
  have hlinks : NoNewLinks t' (DiskEffect.run now (.rename l dst) t').2 :=
    DiskEffect.noNewLinks_run fun _ _ heq => by cases heq; exact hplain
  have hnode := (Lib.FileTree.nodes_rename_self hplain.real hdst hne hr).1
  have hwrote : Wrote S dst data attr t (DiskEffect.run now (.rename l dst) t').2 := by
    refine ⟨h.links.trans hlinks, Lib.FileTree.leaf_eq_some_iff.mpr ⟨?_, nofun⟩, h.kept.trans hkept⟩
    exact hnode.trans (Lib.FileTree.leaf_eq_some_iff.mp h.leaf).1
  exact ⟨hwrote, hwrote.plain (hdst.mono hlinks)⟩

/-! ## Batches -/

/-- What deletes and writes have done: the deleted places hold no leaf, the written ones the files of
their entries, and the others, the staging directory apart, what they held. -/
structure Batch (source : Text → Option Bytes) (new : FileMap) (deletes writes : List Text)
    (t t' : Tree) : Prop where
  links : NoNewLinks t t'
  deleted : ∀ rel ∈ deletes, t'.leaf (loc rel) = none
  written : ∀ rel ∈ writes, ∃ entry bytes, new[rel]? = some entry ∧
    assemble source entry.chunks = some bytes ∧
    t'.leaf (loc rel) = some (.file bytes ⟨entry.mode &&& 0o777, entry.mtime⟩)
  kept : ∀ x, (∀ rel ∈ deletes ++ writes, x ≠ loc rel) → ¬ stagingDir <+: x → t'.leaf x = t.leaf x

variable {new : FileMap} {ds ds' ws ws' : List Text}

/-- Nothing at all is a batch of nothing. -/
theorem Batch.of_leaf (h : ∀ x, t'.leaf x = t.leaf x) : Batch source new [] [] t t' where
  links := noNewLinks_of_leaf h
  deleted := nofun
  written := nofun
  kept := fun x _ _ => h x

/-- What keeps the leaves keeps a batch. -/
theorem Batch.same (h : Batch source new ds ws t t') (hsame : ∀ x, t''.leaf x = t'.leaf x) :
    Batch source new ds ws t t'' where
  links := h.links.trans (noNewLinks_of_leaf hsame)
  deleted := fun rel hrel => (hsame _).trans (h.deleted rel hrel)
  written := fun rel hrel => by
    rw [hsame]
    exact h.written rel hrel
  kept := fun x hx hstaged => (hsame x).trans (h.kept x hx hstaged)

/-- What is outside `.pear` is not in the staging directory. -/
theorem Outside.not_staged (h : Outside l) : ¬ stagingDir <+: l :=
  fun hpre => h.2 (List.IsPrefix.trans ⟨["staging".toList], rfl⟩ hpre)

/-- **Batches at different places compose.** -/
theorem Batch.trans (h : Batch source new ds ws t t') (h' : Batch source new ds' ws' t' t'')
    (hout : ∀ p ∈ ds ++ ws, Outside (loc p))
    (hapart : ∀ p ∈ ds ++ ws, ∀ q ∈ ds' ++ ws', loc p ≠ loc q) :
    Batch source new (ds ++ ds') (ws ++ ws') t t'' := by
  have hfirst : ∀ p ∈ ds ++ ws, t''.leaf (loc p) = t'.leaf (loc p) :=
    fun p hp => h'.kept _ (hapart p hp) (hout p hp).not_staged
  refine ⟨h.links.trans h'.links, fun rel hrel => ?_, fun rel hrel => ?_, fun x hx hstaged => ?_⟩
  · rcases List.mem_append.mp hrel with hrel | hrel
    · rw [hfirst rel (List.mem_append_left _ hrel)]
      exact h.deleted rel hrel
    · exact h'.deleted rel hrel
  · rcases List.mem_append.mp hrel with hrel | hrel
    · rw [hfirst rel (List.mem_append_right _ hrel)]
      exact h.written rel hrel
    · exact h'.written rel hrel
  · have hmem : ∀ rel, rel ∈ ds ++ ws ∨ rel ∈ ds' ++ ws' → x ≠ loc rel := by
      intro rel hrel
      refine hx rel ?_
      simp only [List.mem_append] at hrel ⊢
      tauto
    rw [h'.kept x (fun rel hrel => hmem rel (.inr hrel)) hstaged]
    exact h.kept x (fun rel hrel => hmem rel (.inl hrel)) hstaged

/-- A loop, one batch a turn. -/
theorem within_forM {γ : Type} {f : γ → DiskProg PUnit} (places : List Loc) (d w : γ → List Text) :
    ∀ {xs : List γ} {t : Tree},
    (∀ x ∈ xs, ∀ t, Unlinked places t →
      Within source now R (fun _ => Batch source new (d x) (w x) t) (f x) t) →
    (∀ x ∈ xs, ∀ p ∈ d x ++ w x, Outside (loc p)) →
    xs.Pairwise (fun x y => ∀ p ∈ d x ++ w x, ∀ q ∈ d y ++ w y, loc p ≠ loc q) →
    Unlinked places t →
    Within source now R (fun _ => Batch source new (xs.flatMap d) (xs.flatMap w) t) (forM xs f) t
  | [], t, _, _, _, _ => within_done (Batch.of_leaf fun _ => rfl)
  | x :: xs, t, h, hout, hapart, hplaces => by
    obtain ⟨hhead, htail⟩ := List.pairwise_cons.mp hapart
    refine Lib.wp_bind (Lib.wp_mono (h x List.mem_cons_self t hplaces) fun _ t' hfirst => ?_)
    refine Lib.wp_mono (within_forM places d w (fun y hy => h y (List.mem_cons_of_mem _ hy))
      (fun y hy => hout y (List.mem_cons_of_mem _ hy)) htail (hplaces.mono hfirst.links))
      fun _ t'' hrest => ?_
    rw [List.flatMap_cons, List.flatMap_cons]
    refine hfirst.trans hrest (hout x List.mem_cons_self) fun p hp q hq => ?_
    obtain ⟨y, hy, hq⟩ : ∃ y ∈ xs, q ∈ d y ++ w y := by
      rcases List.mem_append.mp hq with hq | hq
      · obtain ⟨y, hy, hq⟩ := List.mem_flatMap.mp hq
        exact ⟨y, hy, List.mem_append_left _ hq⟩
      · obtain ⟨y, hy, hq⟩ := List.mem_flatMap.mp hq
        exact ⟨y, hy, List.mem_append_right _ hq⟩
    exact hhead y hy p hp q hq

/-! ## The programs -/

/-- Where an entry's path and the directories above it lie. -/
def PathIn (R : Loc → Prop) (rel : Text) : Prop := ∀ d, d <+: loc rel → d ≠ [] → R d

/-- A file is deleted, with the directories that become empty. -/
theorem within_deleteFile {rel : Text} (hne : loc rel ≠ []) (hR : PathIn R rel) :
    Within source now R (fun _ => Batch source new [rel] [] t) (deleteFile rel) t := by
  have hprune : ∀ (ds : List Loc), ds ⊆ dirsAbove (loc rel) → ∀ t' : Tree, t'.Real (loc rel) →
      Batch source new [rel] [] t t' →
      Within source now R (fun _ => Batch source new [rel] [] t) (pruneDirs ds) t' := by
    intro ds
    induction ds with
    | nil => exact fun _ t' _ h => within_done h
    | cons d ds ih =>
      intro hsub t' hreal h
      obtain ⟨hpre, hne, hd⟩ := mem_dirsAbove.mp (hsub List.mem_cons_self)
      have hsame : ∀ x, (DiskEffect.run now (.removeDir d) t').2.leaf x = t'.leaf x :=
        DiskEffect.OnDirs.leaf_run trivial
      refine within_attempt (DiskEffect.confined_at rfl (plain_above hreal hpre hd).real (hR d hpre hne))
        ?_ fun f => within_done h
      cases (DiskEffect.run now (.removeDir d) t').1 with
      | error _ => exact within_done (h.same hsame)
      | ok _ =>
        exact ih (fun x hx => hsub (List.mem_cons_of_mem d hx)) _
          (hreal.mono (noNewLinks_of_leaf hsame)) (h.same hsame)
  unfold deleteFile
  refine Lib.wp_bind (Lib.wp_mono within_ensureRealAncestors fun _ t' hreal => ?_)
  obtain ⟨rfl, hreal⟩ := hreal
  refine Lib.wp_bind (Lib.wp_mono (Q := fun _ => Batch source new [rel] [] t') ?_
    fun _ t'' h => hprune _ (List.Subset.refl _) t'' (hreal.mono h.links) h)
  have hconfined : ∀ R : Loc → Prop, R (loc rel) → (DiskEffect.removeFile (loc rel)).Confined now R t' :=
    fun R hR => DiskEffect.confined_at rfl hreal hR
  refine within_attempt (hconfined R (hR _ (List.prefix_refl _) hne)) ?_ fun _ => trivial
  have hbatch : (DiskEffect.run now (.removeFile (loc rel)) t').2.leaf (loc rel) = none →
      Batch source new [rel] [] t' (DiskEffect.run now (.removeFile (loc rel)) t').2 := by
    intro hnone
    refine ⟨DiskEffect.noNewLinks_run nofun, ?_, nofun, fun x hx _ => ?_⟩
    · rintro _ (_ | ⟨_, ⟨⟩⟩)
      exact hnone
    · exact (hconfined (· = loc rel) rfl).leaf x (hx rel (by simp))
  have hself : ((DiskEffect.run now (.removeFile (loc rel)) t').1 = .ok () ∨
      (DiskEffect.run now (.removeFile (loc rel)) t').1 = .error .notFound) →
      (DiskEffect.run now (.removeFile (loc rel)) t').2.leaf (loc rel) = none :=
    fun hr => Lib.FileTree.leaf_eq_none_iff.mpr (Lib.FileTree.content_unlink_self hreal hr)
  cases hr : (DiskEffect.run now (.removeFile (loc rel)) t').1 with
  | ok _ => exact within_done (hbatch (hself (.inl hr)))
  | error errno =>
    cases errno with
    | notFound => exact within_done (hbatch (hself (.inr hr)))
    | _ => trivial

/-- A file is assembled, renamed into place, and given its modification time. -/
theorem within_writeFile {tag : Text → Text} {rel : Text} {entry : FileEntry}
    (hrel : Outside (loc rel)) (hentry : new[rel]? = some entry) (hR : PathIn R rel)
    (hR' : R (stagePath tag rel)) (hplain : t.Plain (stagePath tag rel)) :
    Within source now R (fun _ => Batch source new [] [rel] t) (writeFile tag rel entry) t := by
  -- The two places that change.
  let S : Loc → Prop := fun x => x = stagePath tag rel ∨ x = loc rel
  have hne : stagePath tag rel ≠ loc rel := by
    intro heq
    exact hrel.2 (heq ▸ pearLoc_prefix_stagePath tag rel)
  have hdest : R (loc rel) := hR _ (List.prefix_refl _) hrel.1
  unfold writeFile
  refine Lib.wp_bind (Lib.wp_mono (within_createPrivate hplain hR') fun _ t₁ h₁ => ?_)
  obtain ⟨attr, h₁⟩ := h₁
  have h₁ : Wrote S (stagePath tag rel) [] attr t t₁ := ⟨h₁.links, h₁.leaf, h₁.kept.mono fun x => .inl⟩
  refine Lib.wp_bind (Lib.wp_mono (within_appendChunks hplain hR' (.inl rfl) [] rfl h₁)
    fun _ t₂ h₂ => ?_)
  obtain ⟨data, attr, hdata, h₂⟩ := h₂
  rw [List.nil_append] at hdata
  refine Lib.wp_bind (Lib.wp_mono (within_update
    (f := fun data attr => (data, { attr with mode := entry.mode &&& 0o777 })) (fun _ => rfl) rfl
    (hplain.mono h₂.links) hR' (.inl rfl) h₂) fun _ t₃ h₃ => ?_)
  refine Lib.wp_bind (Lib.wp_mono within_ensureRealAncestors fun _ t₃ hreal => ?_)
  obtain ⟨rfl, hreal⟩ := hreal
  have hdir : t₃.Plain (loc rel).dropLast :=
    plain_above hreal (List.dropLast_prefix _) (dropLast_ne hrel.1)
  refine Lib.wp_bind (Lib.wp_mono (within_must (Q := fun t' => t'.Real (loc rel) ∧
      Wrote S (stagePath tag rel) data { attr with mode := entry.mode &&& 0o777 } t t')
    (DiskEffect.confined_mkdirAll hdir fun d hd hne =>
      hR d (hd.trans (List.dropLast_prefix _)) hne) fun _ => ?_) fun _ t₄ h₄ => ?_)
  · have hsame : ∀ x, (DiskEffect.run now (.mkdirAll (loc rel).dropLast) t₃).2.leaf x = t₃.leaf x :=
      DiskEffect.OnDirs.leaf_run trivial
    exact ⟨hreal.mono (noNewLinks_of_leaf hsame), h₃.same hsame⟩
  obtain ⟨hreal, h₄⟩ := h₄
  refine Lib.wp_bind (Lib.wp_mono (within_rename (hplain.mono h₄.links) hreal hne hR' hdest
    (.inl rfl) (.inr rfl) h₄) fun _ t₅ h₅ => ?_)
  refine Lib.wp_mono (within_update (f := fun data attr => (data, { attr with mtime := entry.mtime }))
    (fun _ => rfl) rfl h₅.2 hdest (.inr rfl) h₅.1) fun _ t₆ h₆ => ?_
  refine ⟨h₆.links, nofun, ?_, fun x hx hstaged => h₆.kept x ?_⟩
  · rintro _ (_ | ⟨_, ⟨⟩⟩)
    exact ⟨entry, data, hentry, hdata, h₆.leaf⟩
  · rintro (rfl | rfl)
    · exact hstaged (List.prefix_append _ _)
    · exact hx rel (by simp) rfl

/-- Many are deleted. -/
theorem within_deletes (hout : ∀ p ∈ ds, Outside (loc p)) (hR : ∀ p ∈ ds, PathIn R p)
    (hapart : ds.Pairwise fun p q => loc p ≠ loc q) :
    Within source now R (fun _ => Batch source new ds [] t) (forM ds deleteFile) t := by
  have hloop : Within source now R
      (fun _ => Batch source new (ds.flatMap fun p => [p]) (ds.flatMap fun _ => []) t)
      (forM ds deleteFile) t :=
    within_forM [] (fun p => [p]) (fun _ => [])
      (fun p hp t _ => within_deleteFile (hout p hp).1 (hR p hp)) (by simpa using hout)
      (by simpa using hapart) nofun
  rwa [List.flatMap_singleton', List.flatMap_eq_nil_iff.mpr fun _ _ => rfl] at hloop

/-- Many are written. -/
theorem within_writes {tag : Text → Text} (hnew : ∀ p ∈ ws, new[p]? ≠ none)
    (hout : ∀ p ∈ ws, Outside (loc p)) (hR : ∀ p ∈ ws, PathIn R p)
    (hR' : ∀ p ∈ ws, R (stagePath tag p)) (hapart : ws.Pairwise fun p q => loc p ≠ loc q)
    (hplain : ∀ p ∈ ws, t.Plain (stagePath tag p)) :
    Within source now R (fun _ => Batch source new [] ws t) (forM ws (writeEntry tag new)) t := by
  have hloop : Within source now R
      (fun _ => Batch source new (ws.flatMap fun _ => []) (ws.flatMap fun p => [p]) t)
      (forM ws (writeEntry tag new)) t := by
    refine within_forM (ws.map (stagePath tag)) (fun _ => []) (fun p => [p])
      (fun p hp t hplaces => ?_) (by simpa using hout) (by simpa using hapart)
      (List.forall_mem_map.mpr hplain)
    obtain ⟨entry, hentry⟩ := Option.ne_none_iff_exists'.mp (hnew p hp)
    rw [writeEntry, hentry]
    exact within_writeFile (hout p hp) hentry (hR p hp) (hR' p hp)
      (hplaces _ (List.mem_map_of_mem hp))
  rwa [List.flatMap_singleton', List.flatMap_eq_nil_iff.mpr fun _ _ => rfl] at hloop

/-- The staging directory is made, owner-only, and emptied as far as possible. -/
theorem within_prepareStaging (hplain : t.Plain stagingDir) (hR : ∀ x, pearLoc <+: x → R x) :
    Within source now R (fun _ => Batch source new [] [] t) prepareStaging t := by
  have hpre : pearLoc <+: stagingDir := ⟨["staging".toList], rfl⟩
  unfold prepareStaging
  -- The directories are there once they were made.
  refine Lib.wp_bind (Lib.wp_mono (within_must (Q := fun t' => (∀ x, t'.leaf x = t.leaf x) ∧
    t'.isDir pearLoc = true ∧ t'.isDir stagingDir = true) (DiskEffect.confined_mkdirAll hplain ?_)
    fun hr => ?_) fun _ t₁ h₁ => ?_)
  · intro d hd hne
    cases d with
    | nil => exact absurd rfl hne
    | cons n d =>
      obtain ⟨rfl, -⟩ := List.cons_prefix_cons.mp hd
      exact hR _ ⟨d, rfl⟩
  · have hmade : ∀ d, d <+: stagingDir → (t.mkdirs [] stagingDir).2.isDir d = true :=
      Lib.FileTree.isDir_mkdirs stagingDir [] t hplain rfl hr
    exact ⟨DiskEffect.OnDirs.leaf_run trivial, hmade _ hpre, hmade _ (List.prefix_refl _)⟩
  obtain ⟨hsame, hpear, hstaging⟩ := h₁
  have hplain₁ : t₁.Plain stagingDir := hplain.mono (noNewLinks_of_leaf hsame)
  -- So their mode is all that changes.
  have hprivate : ∀ l, l <+: stagingDir → pearLoc <+: l → t₁.isDir l = true →
      Within source now R (fun _ t' => t' = t₁) (must (.setPrivateDir l)) t₁ := by
    intro l hl hlp hdir
    have hplain : t₁.Plain l := fun d hd => hplain₁ d (hd.trans hl)
    exact within_must (DiskEffect.confined_at rfl hplain (hR l hlp)) fun _ =>
      Lib.FileTree.nodes_update_of_isDir hplain hdir _
  refine Lib.wp_bind (Lib.wp_mono (hprivate pearLoc hpre (List.prefix_refl _) hpear) ?_)
  rintro _ _ rfl
  refine Lib.wp_bind (Lib.wp_mono (hprivate stagingDir (List.prefix_refl _) hpre hstaging) ?_)
  rintro _ t₁ rfl
  rintro _ rfl - out hout
  have hdone : Batch source new [] [] t t₁ := Batch.of_leaf hsame
  have hloop : ∀ (names : List Text) (t' : Tree), Batch source new [] [] t t' →
      Within source now R (fun _ => Batch source new [] [] t)
        (forM names fun name => ignore (.removeFile (stagingDir ++ [name]))) t' := by
    intro names
    induction names with
    | nil => exact fun t' h => within_done h
    | cons name names ih =>
      intro t' h
      have hreal : t'.Real (stagingDir ++ [name]) := real_concat (hplain.mono h.links) name
      have hconfined : ∀ R : Loc → Prop, R (stagingDir ++ [name]) →
          (DiskEffect.removeFile (stagingDir ++ [name])).Confined now R t' :=
        fun R hR => DiskEffect.confined_at rfl hreal hR
      refine Lib.wp_bind (Lib.wp_mono (within_ignore (Q := Batch source new [] [] t)
        (hconfined R (hR _ (hpre.trans (List.prefix_append _ _)))) ?_ fun _ => h) fun _ t'' h => ih t'' h)
      refine ⟨h.links.trans (DiskEffect.noNewLinks_run nofun), nofun, nofun, fun x hx hstaged => ?_⟩
      refine ((hconfined (stagingDir <+: ·) (List.prefix_append _ _)).leaf x hstaged).trans ?_
      exact h.kept x hx hstaged
  cases hout with
  | exec =>
    refine ⟨fun _ _ => rfl, ?_⟩
    dsimp only [disk]
    cases t₁.readDir stagingDir with
    | error _ => exact within_done hdone
    | ok names => exact hloop names t₁ hdone
  | fault f => exact ⟨fun _ _ => rfl, within_done hdone⟩

/-- The group flush changes nothing. -/
theorem within_flushDiff {old : FileMap} :
    Within source now R (fun _ t' => ∀ x, t'.leaf x = t.leaf x) (flushDiff old new) t := by
  have hloop : ∀ {γ : Type} {f : γ → DiskProg PUnit} {xs : List γ} {t' : Tree},
      (∀ x ∈ xs, ∀ t', (∀ x, t'.leaf x = t.leaf x) →
        Within source now R (fun _ t' => ∀ x, t'.leaf x = t.leaf x) (f x) t') →
      (∀ x, t'.leaf x = t.leaf x) →
      Within source now R (fun _ t' => ∀ x, t'.leaf x = t.leaf x) (forM xs f) t' := by
    intro γ f xs
    induction xs with
    | nil => exact fun _ h => within_done h
    | cons x xs ih =>
      intro t' hf h
      refine Lib.wp_bind (Lib.wp_mono (hf x List.mem_cons_self t' h) fun _ t'' h => ?_)
      exact ih (fun y hy => hf y (List.mem_cons_of_mem _ hy)) h
  have hsync : ∀ {l : Loc} {t' : Tree}, (DiskEffect.sync l).Confined now R t' :=
    DiskEffect.confined nofun
  have hrun : ∀ {l : Loc} {t' : Tree}, (∀ x, t'.leaf x = t.leaf x) →
      ∀ x, (DiskEffect.run now (.sync l) t').2.leaf x = t.leaf x :=
    fun h x => (DiskEffect.OnDirs.leaf_run (e := .sync _) trivial x).trans (h x)
  unfold flushDiff
  refine Lib.wp_bind (Lib.wp_mono (hloop (fun rel _ t' h => ?_) fun _ => rfl) fun _ t' h =>
    hloop (fun dir _ t' h => within_ignore hsync (hrun h) fun _ => h) h)
  refine within_attempt hsync ?_ fun _ => trivial
  cases (DiskEffect.run now (.sync (loc rel)) t').1 with
  | ok _ => exact within_done (hrun h)
  | error errno =>
    cases errno with
    | notFound => exact within_done (hrun h)
    | _ => trivial

/-- A file is replaced by way of a temporary next to it. -/
theorem within_writeFileAtomic {tmp : Loc} (hplain : t.Plain tmp) (hreal : t.Real l) (hne : tmp ≠ l)
    (hR : R tmp) (hR' : R l) :
    Within source now R (fun _ t' => ∃ attr, Wrote (fun x => x = tmp ∨ x = l) l data attr t t')
      (writeFileAtomic tmp l data) t := by
  let S : Loc → Prop := fun x => x = tmp ∨ x = l
  unfold writeFileAtomic
  refine Lib.wp_bind (Lib.wp_mono (within_createPrivate hplain hR) fun _ t₁ h₁ => ?_)
  obtain ⟨attr, h₁⟩ := h₁
  have h₁ : Wrote S tmp [] attr t t₁ := ⟨h₁.links, h₁.leaf, h₁.kept.mono fun x => .inl⟩
  refine Lib.wp_bind (Lib.wp_mono (within_update
    (f := fun old attr => (old ++ data, { attr with mtime := now })) (fun _ => rfl) rfl
    (hplain.mono h₁.links) hR (.inl rfl) h₁) fun _ t₂ h₂ => ?_)
  have hsync : ∀ {d : Loc} {t' : Tree}, (DiskEffect.sync d).Confined now R t' :=
    DiskEffect.confined nofun
  refine Lib.wp_bind (Lib.wp_mono (within_must (Q := Wrote S tmp data { attr with mtime := now } t) hsync
    fun _ => h₂.same (DiskEffect.OnDirs.leaf_run trivial)) fun _ t₃ h₃ => ?_)
  refine Lib.wp_bind (Lib.wp_mono (within_rename (hplain.mono h₃.links) (hreal.mono h₃.links) hne hR hR'
    (.inl rfl) (.inr rfl) h₃) fun _ t₄ h₄ => ?_)
  exact within_ignore hsync ⟨_, h₄.1.same (DiskEffect.OnDirs.leaf_run trivial)⟩ fun _ => ⟨_, h₄.1⟩

end

end Pear
