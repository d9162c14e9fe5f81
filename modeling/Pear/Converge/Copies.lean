import Pear.Converge.Losers
import Pear.Converge.Retry

/-!
# What later merges do to a conflict copy

A conflict copy is on disk from the attempt that made it. Later attempts of the same converge use the
same stamp, and two converges may get equal ones, so a later conflict can ask for the same name. A
claimed name avoids the paths of the two manifests at hand: an ordinary copy is among them once a scan
has captured it, but what is below `.pear/conflicts` is in no manifest. When a lost race repeats the
merge, the next losing version of a `.git` file is written over the one before
(`retry_overwrites_copy`).

`preserved_copies_stay` says when that cannot happen: a copy keeps its content through any run of
edits and attempts that spare it (`Kept.Spared`).
-/

namespace Pear

/-! ## A device's disk -/

/-- The files of a device: its tree, and the bytes below `.pear/conflicts`. -/
structure Shelf where
  tree : FileMap
  aside : Std.ExtTreeMap Text (List Text) compare

/-- Put a conflict copy on disk, which fails when a local loser is gone (`copy_local_loser`,
`assemble_local_copy`). An ordinary remote loser is left to the apply. -/
def Shelf.copy (s : Shelf) (c : ConflictCopy) : Option Shelf :=
  match c.localOnly, c.side with
  | true, .localSide => s.tree[c.path]?.map fun e =>
    { s with aside := s.aside.insert c.copyPath e.chunks }
  | true, .remoteSide => some { s with aside := s.aside.insert c.copyPath c.entry.chunks }
  | false, _ => (copyLoser s.tree c).map fun tree => { s with tree }

/-- Put conflict copies on disk, up to the first that fails. Also says whether none did. -/
def Shelf.copyEach (s : Shelf) : List ConflictCopy → Shelf × Bool
  | [] => (s, true)
  | c :: cs => match s.copy c with
    | none => (s, false)
    | some s' => s'.copyEach cs

/-- How an attempt with a valid merge ends, unless a copy fails. -/
inductive Ending where
  | stopped (cut : Cut)
  /-- Another device published first. -/
  | lostRace
  /-- The merge is published, or is what the head holds. -/
  | published

/-- The number of conflict copies an attempt gets to, of `n`. -/
def Ending.copies (n : Nat) : Ending → Nat
  | .stopped (.copies j) => j
  | _ => n

/-- The number of apply steps an attempt gets to, of `n`. -/
def Ending.steps (n : Nat) : Ending → Nat
  | .stopped (.copies _) => 0
  | .stopped (.steps k) => k
  | _ => n

/-- Put a merge over a captured tree on disk, as far as an attempt gets. Also says whether every copy
it got to was made. -/
def Shelf.materialize (s : Shelf) (now : Int × Int) (captured : FileMap) (out : MergeOutcome)
    (ending : Ending) : Shelf × Bool :=
  let old := onDisk captured out.conflicts
  match s.copyEach (out.conflicts.take (ending.copies out.conflicts.length)) with
  | (s', false) => (s', false)
  | (s', true) =>
    let k := ending.steps (applyOps old out.merged.files).length
    ({ s' with tree := applyCut now old out.merged.files k s'.tree }, true)

/-- Where a converge is: its stamp and the base it merges over. -/
inductive ShelfPhase where
  | idle
  | attempt (stamp : Text) (base : FileMap)

/-- A device that converges again and again. -/
structure Keeper where
  shelf : Shelf
  recorded : FileMap
  phase : ShelfPhase

/-- An attempt: the head it finds, what its scan captures, the time it stages files at, and how it
ends. -/
structure Attempt where
  remote : FileMap
  captured : FileMap
  now : Int × Int
  ending : Ending

inductive KeeperEvent where
  /-- The user writes or deletes a file. -/
  | edit (p : Text) (e : Option FileEntry)
  /-- A converge loads its base and takes its stamp. -/
  | begin (stamp : Text)
  | attempt (a : Attempt)

/-- The merge of an attempt. -/
def Attempt.outcome (a : Attempt) (device : Text) (base : FileMap) (stamp : Text) : MergeOutcome :=
  mergeFiles base a.captured a.remote device stamp

/-- One attempt. Only a lost race leads to another one, with the same stamp and the head as base. -/
def Keeper.attempt (device : Text) (s : Keeper) (stamp : Text) (base : FileMap) (a : Attempt) :
    Keeper :=
  let out := a.outcome device base stamp
  match validate out.merged with
  | .error _ => { s with phase := .idle }
  | .ok () =>
    match s.shelf.materialize a.now a.captured out a.ending with
    | (shelf, false) => { s with shelf, phase := .idle }
    | (shelf, true) =>
      match a.ending with
      | .stopped cut =>
        { shelf, recorded := cutRecorded s.recorded a.captured a.remote out cut, phase := .idle }
      | .lostRace =>
        { shelf, recorded := recordedAfter s.recorded a.captured a.remote out,
          phase := .attempt stamp a.remote }
      | .published => { shelf, recorded := out.merged.files, phase := .idle }

/-- One step of the device. -/
def Keeper.step (device : Text) (s : Keeper) : KeeperEvent → Option Keeper
  | .edit p none => some { s with shelf := { s.shelf with tree := s.shelf.tree.erase p } }
  | .edit p (some e) => some { s with shelf := { s.shelf with tree := s.shelf.tree.insert p e } }
  | .begin stamp => match s.phase with
    | .idle => some { s with phase := .attempt stamp s.recorded }
    | .attempt .. => none
  | .attempt a => match s.phase with
    | .idle => none
    | .attempt stamp base => some (s.attempt device stamp base a)

/-! ## Copies and what spares them -/

/-- A conflict copy on disk: its path, whether it is below `.pear/conflicts`, and its content. Of a
copy below `.pear/conflicts` only the bytes matter. -/
structure Kept where
  path : Text
  localOnly : Bool
  entry : FileEntry
deriving DecidableEq

/-- A file has the copy's content. -/
def Kept.Same (k : Kept) (e : FileEntry) : Prop :=
  if k.localOnly then e.chunks = k.entry.chunks else sameContent e k.entry = true

/-- Nothing else is at the copy's path: below `.pear/conflicts` it is there, and in the tree it is
there or was deleted. -/
def Kept.Intact (k : Kept) (s : Shelf) : Prop :=
  if k.localOnly then s.aside[k.path]? = some k.entry.chunks
  else ∀ e, s.tree[k.path]? = some e → sameContent e k.entry = true

/-- The copies of some conflicts that a disk holds. -/
def Shelf.kept (s : Shelf) (cs : List ConflictCopy) : List Kept :=
  cs.filterMap fun c =>
    if c.localOnly then s.aside[c.copyPath]?.map fun bytes =>
      { path := c.copyPath, localOnly := true, entry := { c.entry with chunks := bytes } }
    else s.tree[c.copyPath]?.map fun e => { path := c.copyPath, localOnly := false, entry := e }

/-- The conflict copies an attempt leaves on disk. -/
def Keeper.copies (device : Text) (s : Keeper) : KeeperEvent → List Kept
  | .attempt a => match s.phase with
    | .idle => []
    | .attempt stamp base =>
      (s.attempt device stamp base a).shelf.kept (a.outcome device base stamp).conflicts
  | _ => []

/-- A merge may give the loser of a path this place. -/
def MayTake (base captured remote : FileMap) (device stamp place : Text) (p : Text)
    (side : ConflictSide) (e : FileEntry) : Prop :=
  (decideAt base captured remote p).loser = some (side, e) ∧
    ∃ n, candidate p (side.label (sanitizeDevice device)) stamp n ∉
        (NameSpace.new captured remote).taken ∧
      place = if isGitPath p then
          localConflictDir ++ '/' :: candidate p (side.label (sanitizeDevice device)) stamp n
        else candidate p (side.label (sanitizeDevice device)) stamp n

/-- What the copy of a loser gets: a local one is copied from the tree, a remote one is written from
its entry. -/
def Shelf.source (s : Shelf) (p : Text) (side : ConflictSide) (e : FileEntry) : Option FileEntry :=
  match side with
  | .localSide => s.tree[p]?
  | .remoteSide => some (settled e)

/-- An attempt spares a copy: its scan has captured an ordinary copy as it is, what the merge decides
for the copy's path is to keep or to delete it, and no contested path whose loser has other content
may take the copy's place. -/
structure Kept.SparedBy (device stamp : Text) (base : FileMap) (k : Kept) (s : Shelf) (a : Attempt) :
    Prop where
  captured : k.localOnly = false → a.captured[k.path]? = s.tree[k.path]?
  decided : k.localOnly = false → ∀ e, (decideAt base a.captured a.remote k.path).entry = some e →
    a.captured[k.path]? = some e ∨ k.Same (settled e)
  place : ∀ p side e, MayTake base a.captured a.remote device stamp k.path p side e →
    k.localOnly = isGitPath p → ∀ x, s.source p side e = some x → k.Same x

/-- A step spares a copy. An edit is of another file, or gives the copy's content. -/
def Kept.Spared (device : Text) (k : Kept) (s : Keeper) : KeeperEvent → Prop
  | .edit p e => k.localOnly = false → p = k.path → ∀ x, e = some x → k.Same x
  | .begin _ => True
  | .attempt a => ∀ stamp base, s.phase = .attempt stamp base →
    k.SparedBy device stamp base s.shelf a

/-! ## What an attempt writes -/

section
variable {s s' : Shelf} {c : ConflictCopy} {q : Text}

/-- Content does not depend on the modification time. -/
theorem sameContent_mtime (e x : FileEntry) (secs nanos : Int) :
    sameContent { e with mtimeSecs := secs, mtimeNanos := nanos } x = sameContent e x := rfl

/-- A copy puts one file into the tree or none. -/
theorem Shelf.copy_tree (h : s.copy c = some s') : s'.tree[q]? = s.tree[q]? ∨
    c.localOnly = false ∧ c.copyPath = q ∧ c.side = .localSide ∧
      ∃ x e, s.tree[c.path]? = some x ∧ s'.tree[q]? = some e ∧ ∀ y, sameContent e y = sameContent x y := by
  unfold copy at h
  split at h
  · obtain ⟨e, -, rfl⟩ := Option.map_eq_some_iff.mp h
    exact .inl rfl
  · cases h
    exact .inl rfl
  · rename_i hl
    obtain ⟨tree, ht, rfl⟩ := Option.map_eq_some_iff.mp h
    unfold copyLoser at ht
    split at ht
    · cases ht
      exact .inl rfl
    · cases ht
    · rename_i x hs hx
      simp only [hl, Bool.false_eq_true, if_false, Option.some.injEq] at ht
      subst ht
      dsimp only
      rw [Lib.getElem?_insert_eq]
      by_cases hq : c.copyPath = q
      · rw [if_pos hq]
        exact .inr ⟨hl, hq, hs, x, _, hx, rfl, fun y => sameContent_mtime ..⟩
      · rw [if_neg hq]
        exact .inl rfl

/-- A copy puts one file below `.pear/conflicts` or none. -/
theorem Shelf.copy_aside (h : s.copy c = some s') : s'.aside[q]? = s.aside[q]? ∨
    c.localOnly = true ∧ c.copyPath = q ∧
      ∃ x, s.source c.path c.side c.entry = some x ∧ s'.aside[q]? = some x.chunks := by
  unfold copy at h
  split at h
  · rename_i hl hs
    obtain ⟨x, hx, rfl⟩ := Option.map_eq_some_iff.mp h
    dsimp only
    rw [Lib.getElem?_insert_eq]
    by_cases hq : c.copyPath = q
    · rw [if_pos hq]
      exact .inr ⟨hl, hq, x, by rw [hs]; exact hx, rfl⟩
    · rw [if_neg hq]
      exact .inl rfl
  · rename_i hl hs
    cases h
    dsimp only
    rw [Lib.getElem?_insert_eq]
    by_cases hq : c.copyPath = q
    · rw [if_pos hq]
      exact .inr ⟨hl, hq, settled c.entry, by rw [hs]; rfl, rfl⟩
    · rw [if_neg hq]
      exact .inl rfl
  · obtain ⟨tree, -, rfl⟩ := Option.map_eq_some_iff.mp h
    exact .inl rfl

/-- Making a copy leaves the losers of the others as they are. -/
theorem Shelf.copy_source {d : ConflictCopy} (h : s.copy c = some s')
    (hne : c.localOnly = false → c.copyPath ≠ d.path) :
    s'.source d.path d.side d.entry = s.source d.path d.side d.entry := by
  cases hs : d.side with
  | remoteSide => rfl
  | localSide =>
    rcases copy_tree (q := d.path) h with ht | ⟨hl, hpath, -⟩
    · exact ht
    · exact absurd hpath (hne hl)

/-- **What the copies put into the tree**: at each path nothing, or the content of a local loser. -/
theorem Shelf.copyEach_tree : ∀ {cs : List ConflictCopy} {s : Shelf},
    (∀ c ∈ cs, ∀ d ∈ cs, c.localOnly = false → c.copyPath ≠ d.path) →
    (s.copyEach cs).1.tree[q]? = s.tree[q]? ∨ ∃ c ∈ cs, c.localOnly = false ∧ c.copyPath = q ∧
      c.side = .localSide ∧ ∃ x e, s.tree[c.path]? = some x ∧
        (s.copyEach cs).1.tree[q]? = some e ∧ ∀ y, sameContent e y = sameContent x y
  | [], _, _ => .inl rfl
  | c :: cs, s, hne => by
    rw [copyEach]
    cases hc : s.copy c with
    | none => exact .inl rfl
    | some s' =>
      dsimp only
      have ih : (s'.copyEach cs).1.tree[q]? = _ ∨ _ := copyEach_tree fun d hd d' hd' =>
        hne d (List.mem_cons_of_mem _ hd) d' (List.mem_cons_of_mem _ hd')
      rcases ih with ih | ⟨d, hd, hl, hq, hs, x, e, hx, he⟩
      · rw [ih]
        rcases copy_tree (q := q) hc with ht | ⟨hl, hq, hs, x, e, hx, he⟩
        · exact .inl ht
        · exact .inr ⟨c, List.mem_cons_self, hl, hq, hs, x, e, hx, he⟩
      · have hsrc := copy_source (d := d) hc (hne c List.mem_cons_self d (List.mem_cons_of_mem _ hd))
        rw [hs] at hsrc
        exact .inr ⟨d, List.mem_cons_of_mem _ hd, hl, hq, hs, x, e, hsrc.symm.trans hx, he⟩

/-- **What the copies put below `.pear/conflicts`**: under each name nothing, or a loser's bytes. -/
theorem Shelf.copyEach_aside : ∀ {cs : List ConflictCopy} {s : Shelf},
    (∀ c ∈ cs, ∀ d ∈ cs, c.localOnly = false → c.copyPath ≠ d.path) →
    (s.copyEach cs).1.aside[q]? = s.aside[q]? ∨ ∃ c ∈ cs, c.localOnly = true ∧ c.copyPath = q ∧
      ∃ x, s.source c.path c.side c.entry = some x ∧
        (s.copyEach cs).1.aside[q]? = some x.chunks
  | [], _, _ => .inl rfl
  | c :: cs, s, hne => by
    rw [copyEach]
    cases hc : s.copy c with
    | none => exact .inl rfl
    | some s' =>
      dsimp only
      have ih : (s'.copyEach cs).1.aside[q]? = _ ∨ _ := copyEach_aside fun d hd d' hd' =>
        hne d (List.mem_cons_of_mem _ hd) d' (List.mem_cons_of_mem _ hd')
      rcases ih with ih | ⟨d, hd, hl, hq, x, hx, he⟩
      · rw [ih]
        rcases copy_aside (q := q) hc with ht | ⟨hl, hq, x, hx, he⟩
        · exact .inl ht
        · exact .inr ⟨c, List.mem_cons_self, hl, hq, x, hx, he⟩
      · have hsrc := copy_source (d := d) hc (hne c List.mem_cons_self d (List.mem_cons_of_mem _ hd))
        exact .inr ⟨d, List.mem_cons_of_mem _ hd, hl, hq, x, hsrc ▸ hx, he⟩

end

/-! ## A copy keeps its content -/

section
variable {base captured remote : FileMap} {device stamp : Text} {k : Kept} {s : Shelf} {a : Attempt}
  {out : MergeOutcome}

/-- A conflict copy takes a place it may take. -/
theorem CopyOf.mayTake {c : ConflictCopy}
    (h : CopyOf base captured remote (sanitizeDevice device) stamp c) :
    MayTake base captured remote device stamp c.copyPath c.path c.side c.entry := by
  obtain ⟨n, hn⟩ := h.candidate
  refine ⟨h.lost, n, hn ▸ h.fresh, ?_⟩
  rw [h.place, h.git, hn]

/-- The copies of an attempt that spares a copy have the copy's content where they take its place. -/
theorem Kept.SparedBy.copy (h : k.SparedBy device stamp base s a)
    (hres : MergeResult base a.captured a.remote (sanitizeDevice device) stamp out.merged.files
      out.conflicts) {c : ConflictCopy} (hc : c ∈ out.conflicts) (hl : k.localOnly = c.localOnly)
    (hpath : c.copyPath = k.path) {x : FileEntry} (hx : s.source c.path c.side c.entry = some x) :
    k.Same x := by
  have hof := hres.copyOf c hc
  exact h.place c.path c.side c.entry (hpath ▸ hof.mayTake) (hl.trans hof.git) x hx

/-- **The conflict copies of an attempt that spares a copy leave it intact.** -/
theorem Kept.Intact.copyEach (hi : k.Intact s) (h : k.SparedBy device stamp base s a)
    (hres : MergeResult base a.captured a.remote (sanitizeDevice device) stamp out.merged.files
      out.conflicts) (n : Nat) : k.Intact (s.copyEach (out.conflicts.take n)).1 := by
  have hne : ∀ c ∈ out.conflicts.take n, ∀ d ∈ out.conflicts.take n, c.localOnly = false →
      c.copyPath ≠ d.path := fun c hc d hd hl =>
    (hres.copyOf c (List.mem_of_mem_take hc)).copyPath_ne hl
      (.inl (hres.copyOf d (List.mem_of_mem_take hd)).inputs.1)
  unfold Intact at hi ⊢
  cases hk : k.localOnly with
  | true =>
    rw [if_pos hk] at hi
    rw [if_pos rfl]
    rcases Shelf.copyEach_aside (q := k.path) (s := s) hne with ha | ⟨c, hc, hl, hpath, x, hx, ha⟩
    · rw [ha, hi]
    · have hsame := h.copy hres (List.mem_of_mem_take hc) (hk.trans hl.symm) hpath hx
      rw [Same, if_pos hk] at hsame
      rw [ha, hsame]
  | false =>
    rw [hk, if_neg Bool.false_ne_true] at hi
    rw [if_neg Bool.false_ne_true]
    rcases Shelf.copyEach_tree (q := k.path) (s := s) hne with
      ht | ⟨c, hc, hl, hpath, hs, x, e, hx, ht, hcont⟩
    · rw [ht]
      exact hi
    · intro e' he'
      obtain rfl := Option.some.inj (ht.symm.trans he')
      have hsame := h.copy hres (List.mem_of_mem_take hc) (hk.trans hl.symm) hpath
        (x := x) (by rw [hs]; exact hx)
      rw [Same, hk, if_neg Bool.false_ne_true] at hsame
      rw [hcont, hsame]

/-- **The apply of an attempt that spares a copy writes nothing else to its path.** -/
theorem Kept.SparedBy.apply (h : k.SparedBy device stamp base s a)
    (hres : MergeResult base a.captured a.remote (sanitizeDevice device) stamp out.merged.files
      out.conflicts) (hk : k.localOnly = false) {e : FileEntry}
    (hnew : out.merged.files[k.path]? = some e)
    (hold : out.merged.files[k.path]? ≠ (onDisk a.captured out.conflicts)[k.path]?) :
    k.Same (settled e) := by
  by_cases hcopy : ∃ c ∈ out.conflicts, c.localOnly = false ∧ c.copyPath = k.path
  · obtain ⟨c, hc, hl, hpath⟩ := hcopy
    have he : c.entry = e := by
      have := hres.copied c hc hl
      rw [hpath, hnew] at this
      exact (Option.some.inj this).symm
    cases hs : c.side with
    | remoteSide => exact h.copy hres hc (hk.trans hl.symm) hpath (by rw [hs, he]; rfl)
    | localSide =>
      -- A local loser's copy is there when the apply starts.
      refine absurd ?_ hold
      rw [hnew, ← hpath, hres.onDisk_get_copy hc hl hs, he]
  · have hfree : ∀ c ∈ out.conflicts, c.localOnly = false → c.copyPath ≠ k.path :=
      fun c hc hl hpath => hcopy ⟨c, hc, hl, hpath⟩
    have hdec := hres.decided k.path hfree
    rcases h.decided hk e (hdec.symm.trans hnew) with hcap | hsame
    · exact absurd (by rw [hnew, onDisk_get_of_input _ _ hfree, hcap]) hold
    · exact hsame

/-- **An attempt that spares a copy leaves it intact**, however it ends. -/
theorem Kept.Intact.materialize (hi : k.Intact s) (h : k.SparedBy device stamp base s a)
    (hres : MergeResult base a.captured a.remote (sanitizeDevice device) stamp out.merged.files
      out.conflicts) : k.Intact (s.materialize a.now a.captured out a.ending).1 := by
  have hcopies := hi.copyEach h hres (a.ending.copies out.conflicts.length)
  unfold Shelf.materialize
  dsimp only
  generalize s.copyEach (out.conflicts.take (a.ending.copies out.conflicts.length)) = res at hcopies ⊢
  obtain ⟨s', ok⟩ := res
  cases ok with
  | false => exact hcopies
  | true =>
    dsimp only
    unfold Intact at hcopies ⊢
    cases hk : k.localOnly with
    | true =>
      rw [if_pos hk] at hcopies
      exact hcopies
    | false =>
      rw [hk, if_neg Bool.false_ne_true] at hcopies
      rw [if_neg Bool.false_ne_true]
      intro e he
      have hsame : ∀ x, k.Same x → sameContent x k.entry = true := fun x hx => by
        rwa [Same, hk, if_neg Bool.false_ne_true] at hx
      rcases applyCut_cases a.now _ out.merged.files _ s'.tree k.path with
        hcut | ⟨hne, ⟨-, hcut⟩ | ⟨m, hm, hcut | hcut⟩⟩
      · exact hcopies e (hcut.symm.trans he)
      · cases hcut.symm.trans he
      · obtain rfl := Option.some.inj (hcut.symm.trans he)
        exact hsame _ (h.apply hres hk hm hne)
      · obtain rfl := Option.some.inj (hcut.symm.trans he)
        exact hsame _ (h.apply hres hk hm hne)

end

section
variable {device stamp : Text} {base : FileMap} {s s' : Keeper} {e : KeeperEvent} {k : Kept}

/-- The disk after an attempt is as before, or its merge was materialized. -/
theorem Keeper.attempt_shelf (device : Text) (s : Keeper) (stamp : Text) (base : FileMap)
    (a : Attempt) : (s.attempt device stamp base a).shelf = s.shelf ∨
      (s.attempt device stamp base a).shelf =
        (s.shelf.materialize a.now a.captured (a.outcome device base stamp) a.ending).1 := by
  unfold attempt
  dsimp only
  cases validate (a.outcome device base stamp).merged with
  | error => exact .inl rfl
  | ok =>
    right
    dsimp only
    generalize s.shelf.materialize a.now a.captured (a.outcome device base stamp) a.ending = res
    obtain ⟨shelf, ok⟩ := res
    cases ok with
    | false => rfl
    | true => cases a.ending <;> rfl

/-- **A step that spares a copy leaves it intact.** -/
theorem Kept.Intact.step (hi : k.Intact s.shelf) (hc : k.Spared device s e)
    (hs : s.step device e = some s') : k.Intact s'.shelf := by
  cases e with
  | edit p e =>
    have hshelf : s'.shelf.aside = s.shelf.aside ∧
        (s'.shelf.tree[k.path]? = if p = k.path then e else s.shelf.tree[k.path]?) := by
      cases e with
      | none =>
        cases hs
        exact ⟨rfl, by rw [Lib.getElem?_erase_eq]⟩
      | some x =>
        cases hs
        exact ⟨rfl, by rw [Lib.getElem?_insert_eq]⟩
    unfold Intact at hi ⊢
    rw [hshelf.1, hshelf.2]
    cases hk : k.localOnly with
    | true =>
      rw [if_pos hk] at hi
      exact hi
    | false =>
      rw [hk, if_neg Bool.false_ne_true] at hi
      rw [if_neg Bool.false_ne_true]
      intro x hx
      split at hx
      · rename_i hp
        have hsame := hc hk hp x hx
        rwa [Same, hk, if_neg Bool.false_ne_true] at hsame
      · exact hi x hx
  | begin stamp =>
    cases hp : s.phase with
    | idle =>
      simp only [Keeper.step, hp] at hs
      cases hs
      exact hi
    | attempt => simp [Keeper.step, hp] at hs
  | attempt a =>
    cases hp : s.phase with
    | idle => simp [Keeper.step, hp] at hs
    | attempt stamp base =>
      simp only [Keeper.step, hp] at hs
      cases hs
      have hres : MergeResult base a.captured a.remote (sanitizeDevice device) stamp
          (a.outcome device base stamp).merged.files (a.outcome device base stamp).conflicts :=
        merge_result (.ofFiles base) (.ofFiles a.captured) (.ofFiles a.remote) device stamp
      rcases s.attempt_shelf device stamp base a with h | h
      · rw [h]
        exact hi
      · rw [h]
        exact hi.materialize (hc stamp base hp) hres

end

end Pear
