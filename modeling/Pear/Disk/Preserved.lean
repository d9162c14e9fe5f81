import Pear.Disk.Applied
import Pear.Disk.Uncaptured

/-!
# What a materialization does to local bytes

A local file that loses its path is copied aside before the apply writes over it, so wherever a
materialization stops, the bytes of every file changed since the base are at its path or in its copy
(`local_bytes_stay`). The copies are made while every original is still in place, and the apply then
changes no copy and writes over a file that lost nothing only what it held. This takes two things the
code does not check: that no link stands where Pear opens files of its own, and that the copies in
`.pear/conflicts` do not get each other's place.
-/

namespace Pear

open Lib (Errno Node Attr Content)

/-- The tree holds the files of a manifest, each with the bytes that the chunks of its entry have, and
outside `.pear` nothing else. -/
structure HoldsExactly (source : Text → Option Bytes) (files : FileMap) (t : Tree) : Prop where
  file : ∀ (p : Text) (e : FileEntry), files[p]? = some e → ∃ b, t.content (loc p) = some (.file b) ∧
    ∀ b', assemble source e.chunks = some b' → b' = b
  only : ∀ l, ¬ pearLoc <+: l → t.content l ≠ none → ∃ p : Text, files[p]? ≠ none ∧ loc p = l

/-- The keys of two manifests name different places. -/
def DistinctPlaces (a b : FileMap) : Prop := ∀ p q : Text, (a[p]? ≠ none ∨ b[p]? ≠ none) →
  (a[q]? ≠ none ∨ b[q]? ≠ none) → p ≠ q → loc p ≠ loc q

/-- A copy that a materialization makes before the apply. -/
def ConflictCopy.Made (c : ConflictCopy) : Prop := c.side = .localSide ∨ c.localOnly = true

/-- What is asked of the places in `.pear`: no link is where files are opened, and no copy kept there
gets the place of an earlier one that holds local bytes. -/
structure CopiesApart (tag : Text → Text) (files : FileMap) (out : MergeOutcome) (t : Tree) : Prop where
  unlinked : Unlinked (materializePlaces tag files out) t
  apart : out.conflicts.Pairwise fun c d => c.side = .localSide → c.localOnly = true →
    d.localOnly = true → loc c.copyPath ≠ loc d.copyPath

/-- The local bytes of a path are there, or in the copy that the merge gave it. -/
def BytesStay (base files : FileMap) (out : MergeOutcome) (t t' : Tree) : Prop :=
  ∀ (p : Text) (e : FileEntry), files[p]? = some e → base[p]? ≠ some e →
    t'.content (loc p) = t.content (loc p) ∨ ∃ c ∈ out.conflicts, c.path = p ∧ c.side = .localSide ∧
      t'.content (loc c.copyPath) = t.content (loc p)

/-- A call touches a loser's original only when the copy is complete. -/
def CopiedFirst (out : MergeOutcome) (t : Tree) (op : DiskOp) (t' : Tree) : Prop :=
  ∀ c ∈ out.conflicts, c.side = .localSide → loc c.path ∈ op.touches t' →
    t'.content (loc c.copyPath) = t.content (loc c.path)

/-- The contract: local bytes stay, and originals are touched after they were copied. -/
def preservingContract (base files : FileMap) (out : MergeOutcome) (t : Tree) :
    Lib.Contract Tree DiskOp where
  assume _ _ := True
  rely := Calm fun _ => True
  guarantee op w w' := BytesStay base files out t w' ∧ CopiedFirst out t op w
  rely_refl := (diskContract (fun _ => True) (fun _ _ => True) fun _ _ => True).rely_refl
  rely_trans := (diskContract (fun _ => True) (fun _ _ => True) fun _ _ => True).rely_trans

/-- A file changed on this device loses its path to a copy, or its bytes stay at it. -/
theorem decidePath_edited {b l r : Option FileEntry} {e : FileEntry} (hl : l = some e) (hb : l ≠ b) :
    (decidePath b l r).loser = some (.localSide, e) ∨
      ∃ e', (decidePath b l r).entry = some e' ∧ e'.chunks = e.chunks := by
  have hd := decidePath_decided b l r
  subst hl
  generalize decidePath b (some e) r = d at hd ⊢
  cases hd with
  | agree | localMoved | localEdit => exact .inr ⟨e, rfl, rfl⟩
  | remoteMoved _ h => exact absurd h hb
  | remoteEdit hl => cases hl
  | @newer le re hl hr _ _ _ hc =>
    cases hl
    simp only [sameContent, Bool.and_eq_true, decide_eq_true_eq] at hc
    refine .inr ⟨if mtimeGe re e then re else e, rfl, ?_⟩
    split
    · exact hc.1.1.symm
    · rfl
  | localLoses hl =>
    cases hl
    exact .inl rfl
  | remoteLoses hl =>
    cases hl
    exact .inr ⟨e, rfl, rfl⟩

/-- While copies are made: the local files are as they were, the copies of local bytes that are done
have them, and no link has appeared. -/
structure Copying (files : FileMap) (t : Tree) (done : List ConflictCopy) (t' : Tree) : Prop where
  originals : ∀ p : Text, files[p]? ≠ none → t'.content (loc p) = t.content (loc p)
  copied : ∀ c ∈ done, c.side = .localSide → t'.content (loc c.copyPath) = t.content (loc c.path)
  links : NoNewLinks t t'

/-- Others that are calm leave this alone. -/
theorem Copying.calm {files : FileMap} {t t₁ t₂ : Tree} {done : List ConflictCopy}
    (h : Copying files t done t₁) (hr : Calm (fun _ => True) t₁ t₂) : Copying files t done t₂ where
  originals := fun p hp => (hr.content _ trivial).trans (h.originals p hp)
  copied := fun c hc hside => (hr.content _ trivial).trans (h.copied c hc hside)
  links := fun x target hl => h.links x target (hr.noNewLinks x target hl)

/-- A file changed on this device that lost its path to no copy. -/
def Unlost (base files : FileMap) (conflicts : List ConflictCopy) (p : Text) : Prop :=
  ∃ e, files[p]? = some e ∧ base[p]? ≠ some e ∧ ∀ c ∈ conflicts, c.path = p → c.side ≠ .localSide

/-- Once the copies are made: they have the local bytes, and so have the files that lost nothing. -/
structure BytesSecured (base files : FileMap) (conflicts : List ConflictCopy) (t t' : Tree) : Prop where
  copied : ∀ c ∈ conflicts, c.side = .localSide → t'.content (loc c.copyPath) = t.content (loc c.path)
  unlost : ∀ p, Unlost base files conflicts p → t'.content (loc p) = t.content (loc p)

/-- What the apply may change: nothing at a copy of local bytes, and where a file lost nothing only what
it is. -/
def MayReplace (base files : FileMap) (conflicts : List ConflictCopy) (t : Tree) (l : Loc)
    (c : Option (Content Text)) : Prop :=
  (∀ d ∈ conflicts, d.side = .localSide → l ≠ loc d.copyPath) ∧
    ∀ p, Unlost base files conflicts p → l = loc p → c = t.content (loc p)

/-- That is what keeps the bytes secured. -/
theorem BytesSecured.step {base files : FileMap} {conflicts : List ConflictCopy} {t t₁ t₂ : Tree}
    (h : BytesSecured base files conflicts t t₁)
    (hchanges : Changes (MayReplace base files conflicts t) t₁ t₂) :
    BytesSecured base files conflicts t t₂ := by
  refine ⟨fun c hc hside => ?_, fun p hp => ?_⟩
  · refine ((hchanges _).resolve_right fun hchange => ?_).trans (h.copied c hc hside)
    exact hchange.1 c hc hside rfl
  · rcases hchanges (loc p) with hsame | hchange
    · exact hsame.trans (h.unlost p hp)
    · exact hchange.2 p hp rfl

/-- BytesSecured bytes stay. -/
theorem BytesSecured.bytesStay {base files : FileMap} {out : MergeOutcome} {t t' : Tree}
    (h : BytesSecured base files out.conflicts t t') : BytesStay base files out t t' := by
  intro p e he hne
  by_cases hlost : ∃ c ∈ out.conflicts, c.path = p ∧ c.side = .localSide
  · obtain ⟨c, hc, rfl, hside⟩ := hlost
    exact .inr ⟨c, hc, rfl, hside, h.copied c hc hside⟩
  · exact .inl (h.unlost p ⟨e, he, hne, fun c hc hpath hside => hlost ⟨c, hc, hpath, hside⟩⟩)

section
variable {source : Text → Option Bytes} {now : Int × Int} {lower tag : Text → Text}
  {encode : Manifest → Bytes} {base localManifest remote prePushBase : Manifest}
  {device stamp : Text} {out : MergeOutcome} {t t₁ t₂ : Tree} {c : ConflictCopy}

/-- What the results of this section share: a merge whose inputs and outcome are as asked for, on a tree
that holds the local files. -/
structure Preservable (source : Text → Option Bytes) (tag : Text → Text)
    (base localManifest remote : Manifest) (device stamp : Text) (out : MergeOutcome) (t : Tree) :
    Prop where
  result : MergeResult base.files localManifest.files remote.files device stamp out.merged.files
    out.conflicts
  localValid : Valid localManifest.files
  mergedValid : Valid out.merged.files
  places : DistinctPlaces localManifest.files out.merged.files
  holds : HoldsExactly source localManifest.files t
  copies : CopiesApart tag localManifest.files out t

namespace Preservable

variable (h : Preservable source tag base localManifest remote device stamp out t)
include h

/-- A copy's place is in `.pear`, or that of a key of the merge alone. -/
theorem place_cases (hc : c ∈ out.conflicts) :
    c.localOnly = true ∧ [pearDir, "conflicts".toList] <+: loc c.copyPath ∨
      c.localOnly = false ∧ out.merged.files[c.copyPath]? ≠ none ∧
        localManifest.files[c.copyPath]? = none ∧ Outside (loc c.copyPath) := by
  have hcopy := h.result.copyOf c hc
  cases hl : c.localOnly with
  | true => exact .inl ⟨rfl, hcopy.in_conflicts hl⟩
  | false =>
    have hmerged : out.merged.files[c.copyPath]? ≠ none := by simp [h.result.copied c hc hl]
    refine .inr ⟨rfl, hmerged, ?_, (h.mergedValid.path _ hmerged).outside⟩
    by_contra hlocal
    exact hcopy.copyPath_ne hl (.inl hlocal) rfl

/-- No copy is made where a local file is. -/
theorem place_ne (hc : c ∈ out.conflicts) {p : Text} (hp : localManifest.files[p]? ≠ none) :
    loc c.copyPath ≠ loc p := by
  intro heq
  rcases h.place_cases hc with ⟨-, hpre⟩ | ⟨-, hmerged, hlocal, -⟩
  · refine (h.localValid.path p hp).outside.2 (heq ▸ ?_)
    exact in_pear_of_conflicts hpre
  · refine h.places c.copyPath p (.inr hmerged) (.inl hp) ?_ heq
    rintro rfl
    exact hp hlocal

/-- No link is where a copy is made. -/
theorem not_link (hc : c ∈ out.conflicts) (target : List (Lib.Hop Text)) :
    t.content (loc c.copyPath) ≠ some (.link target) := by
  intro hl
  rcases h.place_cases hc with ⟨hlocal, -⟩ | ⟨-, -, -, hout⟩
  · refine h.copies.unlinked (loc c.copyPath) ?_ _ (List.prefix_refl _) target hl
    exact List.mem_append_right _ (List.mem_map_of_mem (List.mem_filter.mpr ⟨hc, hlocal⟩))
  · obtain ⟨p, hp, heq⟩ := h.holds.only (loc c.copyPath) hout.2 (by simp [hl])
    exact h.place_ne hc hp heq.symm

/-- Copies of local bytes are not at one place with later ones. -/
theorem copies_apart : out.conflicts.Pairwise fun c d => c.side = .localSide → d.Made →
    loc c.copyPath ≠ loc d.copyPath := by
  have hall : out.conflicts.Pairwise fun c d => c.side = .localSide → c.localOnly = true →
      d.localOnly = true → loc c.copyPath ≠ loc d.copyPath := h.copies.apart
  refine (hall.and (h.result.distinct)).imp_of_mem fun {c d} hc hd ⟨hapart, hname⟩ hside _ heq => ?_
  rcases h.place_cases hc with ⟨hcl, hcpre⟩ | ⟨hcl, hcm, -, hcout⟩
  · rcases h.place_cases hd with ⟨hdl, -⟩ | ⟨-, -, -, hdout⟩
    · exact hapart hside hcl hdl heq
    · exact hdout.2 (heq ▸ in_pear_of_conflicts hcpre)
  · rcases h.place_cases hd with ⟨-, hdpre⟩ | ⟨hdl, hdm, -, -⟩
    · exact hcout.2 (heq ▸ in_pear_of_conflicts hdpre)
    · refine h.places _ _ (.inr hcm) (.inr hdm) (fun hpath => hname ?_) heq
      rw [h.result.eq_of_copyPath hc hd (hcl.trans hdl.symm) hpath]

/-- The copies are made with every original in place. -/
theorem wp_copies : Lib.wp (disk source now Empty nofun)
    (preservingContract base.files localManifest.files out t)
    (fun _ => Copying localManifest.files t out.conflicts) (forM out.conflicts preserve) t := by
  let I : List ConflictCopy → Tree → Prop := fun rest t' =>
    ∃ done, done ++ rest = out.conflicts ∧ Copying localManifest.files t done t'
  refine Lib.wp_mono (Lib.wp_forM (I := I) ?_ (fun d rest t₁ hi => ?_)
    ⟨[], rfl, fun _ _ => rfl, nofun, fun _ _ hl => hl⟩) ?_
  · rintro rest t₁ t₂ ⟨done, hdone, hcopying⟩ hr
    exact ⟨done, hdone, hcopying.calm hr⟩
  · obtain ⟨done, hdone, hcopying⟩ := hi
    have hd : d ∈ out.conflicts := by
      rw [← hdone]
      exact List.mem_append_right _ List.mem_cons_self
    have hsub : ∀ c ∈ done, c ∈ out.conflicts := fun c hc => hdone ▸ List.mem_append_left _ hc
    have hapart : ∀ c ∈ done, c.side = .localSide → d.Made → loc c.copyPath ≠ loc d.copyPath := by
      have hall := h.copies_apart
      rw [← hdone] at hall
      exact fun c hc => (List.pairwise_append.mp hall).2.2 c hc d List.mem_cons_self
    have hspec : Solo source now (fun x _ => d.Made ∧ x = loc d.copyPath)
        (fun _ t' => d.side = .localSide → ∀ b, t₁.content (loc d.path) = some (.file b) →
          t'.content (loc d.copyPath) = some (.file b)) (preserve d) t₁ :=
      spec_preserve (fun _ target hl => h.not_link hd target (hcopying.links _ target hl))
        fun hmade _ => ⟨hmade, rfl⟩
    refine Lib.wp_mono (Lib.wp_invariant (I := Copying localManifest.files t done)
      (C := diskContract _ _ fun x _ => d.Made ∧ x = loc d.copyPath) (fun _ _ _ _ => trivial)
      (fun w w' hr hi => ⟨hr, hi.calm hr⟩) (fun op w w' hi _ hg => ?_) hspec hcopying)
      fun _ t' hpost => ⟨done ++ [d], by simpa using hdone, ?_⟩
    · have hoff : ∀ x, (d.Made → x ≠ loc d.copyPath) → w'.content x = w.content x := fun x hx =>
        (hg.changes x).resolve_right fun hchange => hx hchange.1 hchange.2
      have hi' : Copying localManifest.files t done w' := by
        refine ⟨fun p hp => ?_, fun c hc hside => ?_, fun x target hl => hi.links x target
          (hg.links x target hl)⟩
        · exact (hoff _ fun _ => (h.place_ne hd hp).symm).trans (hi.originals p hp)
        · exact (hoff _ fun hmade => hapart c hc hside hmade).trans (hi.copied c hc hside)
      refine ⟨hi', fun p e he _ => .inl (hi'.originals p (by simp [he])), fun c hc hside htouch => ?_⟩
      -- Only the copy's place is touched, and no original is there.
      obtain ⟨-, -, heq⟩ := hg.touches _ htouch
      exact absurd heq.symm (h.place_ne hd (h.result.copyOf c hc).inputs.1)
    · obtain ⟨hcopied, hi⟩ := hpost
      refine ⟨hi.originals, fun c hc hside => ?_, hi.links⟩
      rcases List.mem_append.mp hc with hc | hc
      · exact hi.copied c hc hside
      · obtain rfl := List.mem_singleton.mp hc
        have hkey := (h.result.copyOf c hd).inputs.1
        obtain ⟨e, he⟩ := Option.ne_none_iff_exists'.mp hkey
        obtain ⟨b, hb, -⟩ := h.holds.file c.path e he
        rw [hb]
        exact hcopied hside b ((hcopying.originals c.path hkey).trans hb)
  · rintro _ t' ⟨done, hdone, hcopying⟩
    rw [List.append_nil] at hdone
    exact hdone ▸ hcopying

/-! ## The apply -/

/-- What lost nothing is in the merge with its chunks. -/
theorem merged_of_unlost {p : Text} {e : FileEntry} (he : localManifest.files[p]? = some e)
    (hp : Unlost base.files localManifest.files out.conflicts p) :
    ∃ e', out.merged.files[p]? = some e' ∧ e'.chunks = e.chunks := by
  obtain ⟨e₀, he₀, hne, hlost⟩ := hp
  obtain rfl := Option.some.inj (he.symm.trans he₀)
  have hne : localManifest.files[p]? ≠ base.files[p]? := fun heq => hne (heq ▸ he)
  rcases decidePath_edited (r := remote.files[p]?) he hne with hloser | ⟨e', he', hchunks⟩
  · obtain ⟨c, hc, hpath, hside, -⟩ := h.result.complete p _ _ hloser
    exact absurd hside (hlost c hc hpath)
  · have hfree : ∀ c ∈ out.conflicts, c.localOnly = false → c.copyPath ≠ p :=
      fun c hc hl => (h.result.copyOf c hc).copyPath_ne hl (.inl (by simp [he]))
    exact ⟨e', (h.result.decided p hfree).trans he', hchunks⟩

/-- Pear's own places are neither those of copies nor those of files. -/
theorem mayReplace_own {l : Loc} (hl : PearOwn l) (c : Option (Content Text)) :
    MayReplace base.files localManifest.files out.conflicts t l c := by
  refine ⟨fun d hd _ heq => ?_, fun p hp heq => ?_⟩
  · rcases h.place_cases hd with ⟨-, hpre⟩ | ⟨-, -, -, hout⟩
    · -- The second names differ.
      rw [← heq] at hpre
      rcases hl with ⟨r, rfl⟩ | rfl | rfl
      · exact absurd (List.cons_prefix_cons.mp (List.cons_prefix_cons.mp hpre).2).1 (by decide)
      · exact absurd hpre (by decide)
      · exact absurd hpre (by decide)
    · exact hout.not_pearOwn (heq ▸ hl)
  · obtain ⟨e, he, -⟩ := hp
    exact absurd (heq ▸ hl) (h.localValid.path p (by simp [he])).outside.not_pearOwn

/-- **The apply may change what it does.** -/
theorem mayApply : MayApply source (MayReplace base.files localManifest.files out.conflicts t)
    (onDisk localManifest.files out.conflicts) out.merged.files := by
  refine ⟨fun p hp => ?_, fun p hp entry hentry b hb => ?_, fun l hl => h.mayReplace_own (.inl hl),
    h.mayReplace_own (.inr (.inr rfl)), h.mayReplace_own (.inr (.inl rfl))⟩
  · obtain ⟨hdisk, hmerged⟩ := mem_deleted.mp hp
    -- A copy is not deleted, so this is a local file's path.
    have hlocal : localManifest.files[p]? ≠ none := by
      rcases onDisk_ne_none hdisk with hlocal | ⟨c, hc, -, hl, rfl⟩
      · exact hlocal
      · rw [h.result.copied c hc hl] at hmerged
        cases hmerged
    refine ⟨fun d hd _ heq => h.place_ne hd hlocal heq.symm, fun q hq heq => ?_⟩
    obtain ⟨e, he, hrest⟩ := hq
    obtain ⟨e', he', -⟩ := h.merged_of_unlost he ⟨e, he, hrest⟩
    have hne : p ≠ q := by
      rintro rfl
      rw [hmerged] at he'
      cases he'
    exact absurd heq (h.places p q (.inl hlocal) (.inl (by simp [he])) hne)
  · obtain ⟨hmerged, hdisk⟩ := mem_writes.mp hp
    refine ⟨fun d hd hside heq => ?_, fun q hq heq => ?_⟩
    · rcases h.place_cases hd with ⟨-, hpre⟩ | ⟨hl, hcopied, -, -⟩
      · refine (h.mergedValid.path p hmerged).outside.2 (heq ▸ ?_)
        exact in_pear_of_conflicts hpre
      · by_cases hpath : p = d.copyPath
        · rw [hpath, h.result.onDisk_get_copy hd hl hside, h.result.copied d hd hl] at hdisk
          exact hdisk rfl
        · exact h.places p d.copyPath (.inr hmerged) (.inr hcopied) hpath heq
    · obtain ⟨e, he, hrest⟩ := hq
      obtain ⟨e', he', hchunks⟩ := h.merged_of_unlost he ⟨e, he, hrest⟩
      have hpath : p = q := by
        by_contra hne
        exact h.places p q (.inr hmerged) (.inl (by simp [he])) hne heq
      subst hpath
      obtain rfl := Option.some.inj (hentry.symm.trans he')
      obtain ⟨b₀, hb₀, hbytes⟩ := h.holds.file p e he
      rw [hb₀, hbytes b (hchunks ▸ hb)]

/-- **The apply keeps what is secured**, and by then every copy is complete. -/
theorem wp_apply {t' : Tree} (hcopying : Copying localManifest.files t out.conflicts t') :
    Lib.wp (disk source now Empty nofun) (preservingContract base.files localManifest.files out t)
      (fun _ _ => True) (applyCommit lower tag encode
        { localManifest with files := onDisk localManifest.files out.conflicts } out.merged prePushBase)
      t' := by
  have hsecured : BytesSecured base.files localManifest.files out.conflicts t t' :=
    ⟨hcopying.copied, fun p ⟨e, he, _⟩ => hcopying.originals p (by simp [he])⟩
  have hspec : Solo source now (MayReplace base.files localManifest.files out.conflicts t)
      (fun _ _ => True) (applyCommit lower tag encode
        { localManifest with files := onDisk localManifest.files out.conflicts } out.merged prePushBase)
      t' :=
    spec_applyCommit h.mayApply fun l hl =>
      (h.copies.unlinked.mono hcopying.links) l (List.mem_append_left _ hl)
  refine Lib.wp_mono (Lib.wp_invariant
    (I := BytesSecured base.files localManifest.files out.conflicts t) (C := diskContract _ _ (MayReplace base.files localManifest.files out.conflicts t))
    (fun _ _ _ _ => trivial) (fun w w' hr hi => ⟨hr, ?_⟩) (fun op w w' hi _ hg => ?_) hspec hsecured)
    fun _ _ _ => trivial
  · exact hi.step fun x => .inl (hr.content x trivial)
  · have hi' := hi.step hg.changes
    exact ⟨hi', hi'.bytesStay, fun c hc hside _ => hi.copied c hc hside⟩

/-- **A materialization keeps local bytes.** -/
theorem wp_materialize : Lib.wp (disk source now Empty nofun)
    (preservingContract base.files localManifest.files out t) (fun _ _ => True)
    (materialize lower tag encode localManifest prePushBase out) t := by
  unfold materialize
  refine Lib.wp_bind (Lib.wp_mono h.wp_copies fun _ t' hcopying => ?_)
  dsimp only
  split
  · exact fun _ _ => trivial
  · exact Lib.wp_bind (Lib.wp_mono (h.wp_apply hcopying) fun _ _ _ _ _ => trivial)

end Preservable

/-- **No local byte is lost, wherever a materialization stops**, and a copy is complete before its
original is touched. -/
theorem local_bytes_stay {s : Tree × DiskProg Materialized}
    {ticks : List (Lib.Tick (Option Nat) Empty)} (hlocal : validate localManifest = .ok ())
    (hmerged : validate (merge base localManifest remote device stamp).merged = .ok ())
    (hplaces : DistinctPlaces localManifest.files
      (merge base localManifest remote device stamp).merged.files)
    (hholds : HoldsExactly source localManifest.files t)
    (hcopies : CopiesApart tag localManifest.files (merge base localManifest remote device stamp) t)
    (run : Lib.Run (disk source now Empty nofun).step (fun _ _ => True)
      (t, materialize lower tag encode localManifest prePushBase
        (merge base localManifest remote device stamp)) ticks s) :
    BytesStay base.files localManifest.files (merge base localManifest remote device stamp) t s.1 ∧
      ∀ (op : DiskOp) (k : op.Ret → DiskProg Materialized), s.2 = .call op k →
        CopiedFirst (merge base localManifest remote device stamp) t op s.1 := by
  have h : Preservable source tag base localManifest remote (sanitizeDevice device) stamp
      (merge base localManifest remote device stamp) t :=
    ⟨merge_result base localManifest remote device stamp, validate_eq_ok_iff.mp hlocal,
      validate_eq_ok_iff.mp hmerged, hplaces, hholds, hcopies⟩
  have hspec : Lib.wp (disk source now Empty nofun)
      (preservingContract base.files localManifest.files
        (merge base localManifest remote device stamp) t) (fun _ _ => True)
      (materialize lower tag encode localManifest prePushBase
        (merge base localManifest remote device stamp)) t := h.wp_materialize
  have hrun := Lib.admissible_of_isEmpty (C := preservingContract base.files localManifest.files
    (merge base localManifest remote device stamp) t) (fun _ _ => trivial) run
  constructor
  · refine Lib.wp_always (I := BytesStay base.files localManifest.files
      (merge base localManifest remote device stamp) t) (fun w w' hr h p e he hne => ?_)
      (fun op w w' (hg : _ ∧ _) _ => hg.1) hrun hspec fun _ _ _ _ => .inl rfl
    have hsame : ∀ l, w'.content l = w.content l := fun l => hr.content l trivial
    simpa only [hsame] using h p e he hne
  · rintro op k hcall
    have hnext := Lib.wp_run hrun hspec
    rw [hcall] at hnext
    exact (hnext s.1 ⟨fun _ _ => rfl, fun _ _ => Iff.rfl⟩ trivial _ .exec).1.2

end

/-! ## Runs -/

/-- The entry of a file with one byte. -/
def oneByteEntry : FileEntry := { emptyFile with size := 1, chunks := [.replicate 64 'a'] }

/-- A chunk source that has its chunk. -/
def oneByteSource (hash : Text) : Option Bytes := if hash = .replicate 64 'a' then some [1] else none

/-- A local manifest with one file of one byte. -/
def localByte (path : Text) : Manifest := manifestOf (.ofList [(path, oneByteEntry)] compare)

theorem localByte_get {path p : Text} {e : FileEntry} :
    (localByte path).files[p]? = some e ↔ p = path ∧ e = oneByteEntry := by
  have hfiles : (localByte path).files = (∅ : FileMap).insert path oneByteEntry :=
    Std.ExtTreeMap.ofList_singleton
  rw [hfiles, Lib.getElem?_insert_eq]
  by_cases hp : path = p
  · simp [hp, eq_comm]
  · simp [hp, Ne.symm hp]

/-- A tree with this one file holds the manifest. -/
theorem holdsExactly_localByte {path : Text} {t : Tree}
    (hfile : t.content (loc path) = some (.file [1]))
    (honly : ∀ l ∈ t.nodes.keys, t.content l ≠ none → ¬ pearLoc <+: l → l = loc path) :
    HoldsExactly oneByteSource (localByte path).files t := by
  refine ⟨fun p e he => ?_, fun l hl hthere => ⟨path, ?_, ?_⟩⟩
  · obtain ⟨rfl, rfl⟩ := localByte_get.mp he
    have hassembled : assemble oneByteSource oneByteEntry.chunks = some [1] := by decide +kernel
    exact ⟨[1], hfile, fun b' hb' => (Option.some.inj (hassembled.symm.trans hb')).symm⟩
  · rw [localByte_get.mpr ⟨rfl, rfl⟩]
    nofun
  · refine (honly l (Lib.mem_keys_iff.mpr fun hno => hthere ?_) hthere hl).symm
    simp [Lib.FileTree.content, hno]

/-- Manifests with two keys at different places. -/
theorem distinctPlaces_pair {a b : FileMap} {x y : Text} (hkeys : ∀ p ∈ a.keys ++ b.keys, p = x ∨ p = y)
    (hxy : loc x ≠ loc y) : DistinctPlaces a b := by
  have hkey : ∀ p, (a[p]? ≠ none ∨ b[p]? ≠ none) → p = x ∨ p = y := fun p hp =>
    hkeys p (List.mem_append.mpr (hp.imp Lib.mem_keys_iff.mpr Lib.mem_keys_iff.mpr))
  intro p q hp hq hne
  rcases hkey p hp with rfl | rfl <;> rcases hkey q hq with rfl | rfl
  · exact absurd rfl hne
  · exact hxy
  · exact hxy.symm
  · exact absurd rfl hne

/-- The bytes of a file that loses to a newer one are in its copy at the end. -/
theorem local_bytes_stay_copied :
    let remote := manifestOf (.ofList [("f".toList, { emptyFile with mtimeSecs := 1 })] compare)
    let out := merge (manifestOf ∅) (localByte "f".toList) remote "d".toList "s".toList
    ∃ (t' : Tree) (report : Materialized),
      Lib.Run (disk oneByteSource (7, 0) Empty nofun).step (fun _ _ => True)
        (treeWithByte ["f".toList],
          materialize id id (fun _ => []) (localByte "f".toList) (manifestOf ∅) out)
        (.replicate 21 .go) (t', .done report) ∧
      t'.content ["f".toList] = some (.file []) ∧
      t'.content ["f (conflict from d s)".toList] = some (.file [1]) := by
  intro remote out
  let t := treeWithByte ["f".toList]
  have hrun : (Lib.replay (disk oneByteSource (7, 0) Empty nofun).step
      (t, materialize id id (fun _ => []) (localByte "f".toList) (manifestOf ∅) out)
      (.replicate 21 .go)).map
        (ended fun t' => decide (t'.content ["f".toList] = some (.file []))) = some true := by
    decide +kernel
  obtain ⟨t', report, run, hcheck⟩ := exists_ended hrun
  have hwon : t'.content ["f".toList] = some (.file []) := of_decide_eq_true hcheck
  have hbyte : t.content ["f".toList] = some (.file [1]) := by decide +kernel
  have hconflicts : out.conflicts.map (fun c => (c.path, c.copyPath, c.localOnly)) =
      [("f".toList, "f (conflict from d s)".toList, false)] := by
    decide +kernel
  have hplaces : DistinctPlaces (localByte "f".toList).files out.merged.files := by
    have hkeys : ∀ p ∈ (localByte "f".toList).files.keys ++ out.merged.files.keys,
        p = "f".toList ∨ p = "f (conflict from d s)".toList := by
      decide +kernel
    exact distinctPlaces_pair hkeys (by decide)
  have hcopies : CopiesApart id (localByte "f".toList).files out t := by
    have hmanifest : t.content manifestTmp = none := by decide +kernel
    have hstaged : ∀ p ∈ writtenPaths (onDisk (localByte "f".toList).files out.conflicts)
        out.merged.files, t.content (stagePath id p) = none := by
      decide +kernel
    have hnone : localCopyPlaces out.conflicts = [] := by decide +kernel
    have hone : out.conflicts.length = 1 := by decide +kernel
    constructor
    · rw [materializePlaces, hnone, List.append_nil]
      refine unlinked_applyPlaces (by decide +kernel) (by decide +kernel) (fun target => ?_)
        fun p hp target => ?_
      · rw [hmanifest]
        nofun
      · rw [hstaged p hp]
        nofun
    · obtain ⟨c, hc⟩ := List.length_eq_one_iff.mp hone
      rw [hc]
      exact List.pairwise_singleton _ _
  have hbytes := (local_bytes_stay (by decide +kernel) (by decide +kernel) hplaces
    (holdsExactly_localByte hbyte (by decide +kernel)) hcopies run).1 "f".toList oneByteEntry
      (localByte_get.mpr ⟨rfl, rfl⟩) (by decide +kernel)
  refine ⟨t', report, run, hwon, ?_⟩
  rcases hbytes with hstays | ⟨c, hc, -, -, hcopy⟩
  · exact absurd (hwon.symm.trans (hstays.trans hbyte)) (by decide)
  · have hpath : c.copyPath = "f (conflict from d s)".toList := by
      have hmem := List.mem_map_of_mem (f := fun c => (c.path, c.copyPath, c.localOnly)) hc
      rw [hconflicts, List.mem_singleton] at hmem
      exact congrArg (·.2.1) hmem
    rw [hpath] at hcopy
    exact hcopy.trans hbyte

/-- A target whose staging directory is a link to one of its own directories. -/
def stagedInside : Tree :=
  let dirs := ((emptyTree.mkdirs [] pearLoc).2.mkdirs [] ["d".toList]).2
  let linked := (dirs.put stagingDir (.link [.up, .down "d".toList])).getD dirs
  (linked.put ["d".toList, "f".toList] (.file [1] ⟨0o644, (0, 0)⟩)).getD linked

/-- **Where the staging directory is a link into the tree, clearing it removes a changed file** that
the merge keeps and gives no copy. -/
theorem staging_link_loses_bytes :
    let base := manifestOf (.ofList [("d/f".toList, emptyFile)] compare)
    let remote := manifestOf (.ofList [("d/f".toList, emptyFile), ("g".toList, emptyFile)] compare)
    let out := merge base (localByte "d/f".toList) remote "d".toList "s".toList
    validate base = .ok () ∧ validate (localByte "d/f".toList) = .ok () ∧ validate remote = .ok () ∧
    validate out.merged = .ok () ∧ DistinctPlaces (localByte "d/f".toList).files out.merged.files ∧
    HoldsExactly oneByteSource (localByte "d/f".toList).files stagedInside ∧
    ∃ (t' : Tree) (report : Materialized),
      Lib.Run (disk oneByteSource (7, 0) Empty nofun).step (fun _ _ => True)
        (stagedInside, materialize id id (fun _ => []) (localByte "d/f".toList) (manifestOf ∅) out)
        (.replicate 17 .go) (t', .done report) ∧
      ¬ BytesStay base.files (localByte "d/f".toList).files out stagedInside t' := by
  intro base remote out
  have hrun : (Lib.replay (disk oneByteSource (7, 0) Empty nofun).step
      (stagedInside, materialize id id (fun _ => []) (localByte "d/f".toList) (manifestOf ∅) out)
      (.replicate 17 .go)).map
        (ended fun t' => decide (t'.content (loc "d/f".toList) = none)) = some true := by
    decide +kernel
  obtain ⟨t', report, run, hcheck⟩ := exists_ended hrun
  have hgone : t'.content (loc "d/f".toList) = none := of_decide_eq_true hcheck
  have hbyte : stagedInside.content (loc "d/f".toList) = some (.file [1]) := by decide +kernel
  have hplaces : DistinctPlaces (localByte "d/f".toList).files out.merged.files := by
    have hkeys : ∀ p ∈ (localByte "d/f".toList).files.keys ++ out.merged.files.keys,
        p = "d/f".toList ∨ p = "g".toList := by
      decide +kernel
    exact distinctPlaces_pair hkeys (by decide)
  have hconflicts : out.conflicts = [] := by decide +kernel
  refine ⟨by decide +kernel, by decide +kernel, by decide +kernel, by decide +kernel, hplaces,
    holdsExactly_localByte hbyte (by decide +kernel), t', report, run, fun hstay => ?_⟩
  rcases hstay "d/f".toList oneByteEntry (localByte_get.mpr ⟨rfl, rfl⟩) (by decide +kernel)
    with hsame | ⟨c, hc, -⟩
  · rw [hgone, hbyte] at hsame
    cases hsame
  · rw [hconflicts] at hc
    cases hc

end Pear
