import Pear.Converge
import Pear.Lib.Runs

/-!
# Many writers and one relay

Any number of devices converge with one relay, whose head log grows only by compare-and-swap. A
converge reads the head, scans, merges and brings the tree to the merge, then publishes; when it
lost the race it starts over on the head it merged against (`converge_once`). Users edit at any
time. Materializing is one step here that brings the tree to the merge exactly, which is what the
steps of the apply amount to when the disk can hold every entry (`materialize_in_one_step`).

Ghost fields remember, for the running converge, what its tree and base were when it began, which
paths the user edited since, which heads it merged against and which conflict copies it made. A
change the converge began with is at every moment in the tree and not in the base, or safe for good
(`Held`); placing a merge keeps it so (`Held.placeAt`), and then no order of the steps of any number
of devices loses an update (`fleet_no_lost_update`).
-/

namespace Pear

/-! ## Bringing a tree to a merge -/

/-- Bring a tree to `m` where `m` differs from the scan `l`, and leave the rest as it is. -/
def bringTo (t l m : FileMap) : FileMap :=
  let d := diff l m
  (d.added ++ d.changed).foldl (fun t p => match m[p]? with | some e => t.insert p e | none => t)
    (d.deleted.foldl (fun t p => t.erase p) t)

/-- Erasing a list of paths. -/
theorem foldl_erase_get (q : Text) : ∀ (ps : List Text) (t : FileMap),
    (ps.foldl (fun t p => t.erase p) t)[q]? = if q ∈ ps then none else t[q]?
  | [], t => by simp
  | p :: ps, t => by
    rw [List.foldl_cons, foldl_erase_get q ps, Lib.getElem?_erase_eq]
    by_cases hp : p = q
    · simp [hp]
    · simp [hp, Ne.symm hp]

/-- Inserting the entries of a map at a list of paths. -/
theorem foldl_insert_get (m : FileMap) (q : Text) : ∀ (ps : List Text) (t : FileMap),
    (∀ p ∈ ps, m[p]? ≠ none) →
    (ps.foldl (fun t p => match m[p]? with | some e => t.insert p e | none => t) t)[q]? =
      if q ∈ ps then m[q]? else t[q]?
  | [], t, _ => by simp
  | p :: ps, t, h => by
    obtain ⟨e, he⟩ := Option.ne_none_iff_exists'.mp (h p List.mem_cons_self)
    rw [List.foldl_cons, foldl_insert_get m q ps _ fun p hp => h p (List.mem_cons_of_mem _ hp), he,
      Lib.getElem?_insert_eq]
    by_cases hp : p = q
    · subst hp
      simp [he]
    · simp [hp, Ne.symm hp]

/-- **The tree takes the merge's entry where the merge differs from the scan.** -/
theorem bringTo_get (t l m : FileMap) (q : Text) :
    (bringTo t l m)[q]? = if m[q]? = l[q]? then t[q]? else m[q]? := by
  rw [bringTo, foldl_insert_get m q _ _ fun p hp => (mem_writes.mp hp).1, foldl_erase_get]
  simp only [mem_writes, mem_deleted]
  by_cases h : m[q]? = l[q]?
  · simp [h]
  · by_cases hn : m[q]? = none
    · have hl : l[q]? ≠ none := fun hl => h (hn.trans hl.symm)
      simp [hn, hl, hl.symm]
    · simp [h, hn, Ne.symm h]

/-- Where a device's converge stands. -/
inductive MemberPhase where
  | idle
  /-- At the top of the loop, with the base in memory. -/
  | attempt (base : FileMap)
  /-- The head is read. -/
  | fetched (base : FileMap) (seq : Nat) (remote : FileMap)
  /-- The tree is scanned. -/
  | scanned (base : FileMap) (seq : Nat) (remote captured : FileMap)
  /-- The tree is brought to the merge, which is about to be published. -/
  | placed (base : FileMap) (seq : Nat) (remote captured : FileMap) (out : MergeOutcome)

/-- A writer device. -/
structure Member where
  tree : FileMap
  /-- The file set of `.pear/manifest.json`. -/
  recorded : FileMap
  /-- The copies below `.pear/conflicts`. -/
  kept : List ConflictCopy
  phase : MemberPhase
  /-- The sequence number the last completed converge reported. -/
  reported : Nat
  /-- The tree and the recorded base when the running converge began. -/
  startTree : FileMap
  startBase : FileMap
  /-- The paths the user edited since it began, and since its last scan. -/
  edited : List Text
  late : List Text
  /-- The heads it merged against. -/
  against : List FileMap
  /-- The conflict copies it made. -/
  made : List ConflictCopy

/-- A head in the log, with the merge that made it. -/
structure Publication (D : Type) where
  device : D
  base : FileMap
  captured : FileMap
  remote : FileMap
  out : MergeOutcome

/-- The devices and the head log, newest first. -/
structure Fleet (D : Type) where
  member : D → Member
  log : List (Publication D)

/-- The newest head of a log, empty when there is none. -/
def headOf {D : Type} : List (Publication D) → FileMap
  | [] => ∅
  | P :: _ => P.out.merged.files

/-- The head at a sequence number. -/
def headAt {D : Type} (log : List (Publication D)) (seq : Nat) : FileMap :=
  headOf (log.drop (log.length - seq))

/-- What can happen at a device. -/
inductive FleetEvent where
  /-- The user gives a path an entry, or deletes it. -/
  | edit (p : Text) (e : Option FileEntry)
  | begin
  | fetch
  | scan
  | place (stamp : Text)
  | publish
  /-- The converge returns an error. -/
  | fail

/-- One step of a device named `name`, with the head log before and after it. -/
def Member.step {D : Type} (d : D) (name : Text) (log : List (Publication D)) (m : Member) :
    FleetEvent → Option (Member × List (Publication D))
  | .edit p e => some ({ m with
      tree := match e with | some e => m.tree.insert p e | none => m.tree.erase p
      edited := p :: m.edited
      late := p :: m.late }, log)
  | .begin =>
    match m.phase with
    | .idle => some ({ m with
        phase := .attempt m.recorded, startTree := m.tree, startBase := m.recorded
        edited := [], late := [], against := [], made := [] }, log)
    | _ => none
  | .fetch =>
    match m.phase with
    | .attempt base => some ({ m with phase := .fetched base log.length (headOf log) }, log)
    | _ => none
  | .scan =>
    match m.phase with
    | .fetched base seq remote =>
      some ({ m with phase := .scanned base seq remote m.tree, late := [] }, log)
    | _ => none
  | .place stamp =>
    match m.phase with
    | .scanned base seq remote captured =>
      let out := mergeFiles base captured remote name stamp
      if validate out.merged = .ok () then
        some ({ m with
          tree := bringTo m.tree captured out.merged.files
          recorded := recordedAfter m.recorded captured remote out
          kept := m.kept ++ out.conflicts.filter (·.localOnly)
          phase := .placed base seq remote captured out
          against := remote :: m.against
          made := m.made ++ out.conflicts }, log)
      else none
    | _ => none
  | .publish =>
    match m.phase with
    | .placed base seq remote captured out =>
      if out.merged.files = remote && seq ≠ 0 then
        some ({ m with recorded := out.merged.files, phase := .idle, reported := seq }, log)
      else if log.length = seq then
        some ({ m with recorded := out.merged.files, phase := .idle, reported := seq + 1 },
          { device := d, base, captured, remote, out } :: log)
      else some ({ m with phase := .attempt remote }, log)
    | _ => none
  | .fail =>
    match m.phase with
    | .idle => none
    | _ => some ({ m with phase := .idle }, log)

section
variable {D : Type} [DecidableEq D]

/-- The system: one device takes a step, under its own name. -/
def Fleet.step (name : D → Text) (s : Fleet D) (e : D × FleetEvent) : Option (Fleet D) :=
  ((s.member e.1).step e.1 (name e.1) s.log e.2).map fun (m, log) =>
    { member := Function.update s.member e.1 m, log }

/-- Devices that never converged, in front of an empty log. -/
def Fleet.fresh (tree : D → FileMap) : Fleet D where
  member d :=
    { tree := tree d, recorded := ∅, kept := [], phase := .idle, reported := 0, startTree := ∅,
      startBase := ∅, edited := [], late := [], against := [], made := [] }
  log := []

end

/-! ## What a converge holds on to -/

/-- The paths an entry of `p` may have moved to: `p`, and the synced conflict copies made of the
local entry at such a path. -/
inductive HomeOf (made : List ConflictCopy) (p : Text) : Text → Prop
  | self : HomeOf made p p
  | copy {c : ConflictCopy} (h : HomeOf made p c.path) (hc : c ∈ made) (hs : c.side = .localSide)
      (hl : c.localOnly = false) : HomeOf made p c.copyPath

/-- Making more copies keeps the homes there are. -/
theorem HomeOf.mono {made made' : List ConflictCopy} {p q : Text} (h : HomeOf made p q)
    (hsub : made ⊆ made') : HomeOf made' p q := by
  induction h with
  | self => exact .self
  | copy _ hc hs hl ih => exact .copy ih (hsub hc) hs hl

/-- An entry is safe for good: it has a copy below `.pear/conflicts`, or a head merged against holds
the same content at its path or at a copy of it. -/
def Secured (m : Member) (p : Text) (e : FileEntry) : Prop :=
  ∃ q, HomeOf m.made p q ∧
    ((∃ c ∈ m.kept, c.path = q ∧ c.side = .localSide ∧ c.localOnly = true ∧ c.entry = e) ∨
      ∃ H ∈ m.against, ∃ e', H[q]? = some e' ∧ sameContent e e' = true)

/-- The tree holds an entry the base does not have. -/
def Live (m : Member) (base : FileMap) (p : Text) (e : FileEntry) : Prop :=
  ∃ q, HomeOf m.made p q ∧ m.tree[q]? = some e ∧ base[q]? ≠ some e

/-- Every entry the converge started with as a local change is secured or live, if the user left its
homes alone. -/
def Held (m : Member) (base : FileMap) : Prop :=
  ∀ p e, m.startTree[p]? = some e → m.startBase[p]? ≠ some e →
    (∀ q, HomeOf m.made p q → q ∉ m.edited) → Secured m p e ∨ Live m base p e

/-- The remote of an attempt is the head at its sequence number. -/
def RemoteAt {D : Type} (log : List (Publication D)) (seq : Nat) (remote : FileMap) : Prop :=
  seq ≤ log.length ∧ headAt log seq = remote

/-- What holds of a device in front of a head log. -/
structure MemberInv {D : Type} (name : Text) (log : List (Publication D)) (m : Member) : Prop where
  late : m.late ⊆ m.edited
  attempt : ∀ base, m.phase = .attempt base → Held m base
  fetched : ∀ base seq remote, m.phase = .fetched base seq remote →
    Held m base ∧ RemoteAt log seq remote
  scanned : ∀ base seq remote captured, m.phase = .scanned base seq remote captured →
    Held m base ∧ RemoteAt log seq remote ∧ ∀ q : Text, q ∉ m.late → m.tree[q]? = captured[q]?
  placed : ∀ base seq remote captured out, m.phase = .placed base seq remote captured out →
    Held m remote ∧ RemoteAt log seq remote ∧
      (∀ q : Text, q ∉ m.late → m.tree[q]? = out.merged.files[q]?) ∧
      (∀ c ∈ out.conflicts, c.localOnly = true → c ∈ m.kept) ∧
      ∃ stamp, out = mergeFiles base captured remote name stamp

/-- Every head in the log was merged from the head before it. -/
def LogOk {D : Type} (name : D → Text) : List (Publication D) → Prop
  | [] => True
  | P :: log => (P.remote = headOf log ∧
      ∃ stamp, P.out = mergeFiles P.base P.captured P.remote (name P.device) stamp) ∧ LogOk name log

/-! ## The steps keep it -/

section
variable {D : Type} {log : List (Publication D)} {seq : Nat} {remote base : FileMap} {name : Text}
  {m : Member}

/-- The head just read is the head at the log's length. -/
theorem remoteAt_headOf (log : List (Publication D)) : RemoteAt log log.length (headOf log) := by
  simp [RemoteAt, headAt]

/-- A publication leaves earlier sequence numbers alone. -/
theorem RemoteAt.cons (h : RemoteAt log seq remote) (P : Publication D) :
    RemoteAt (P :: log) seq remote := by
  obtain ⟨hle, hat⟩ := h
  refine ⟨by simp; omega, ?_⟩
  rw [← hat, headAt, headAt, List.length_cons, show log.length + 1 - seq = log.length - seq + 1 by omega,
    List.drop_succ_cons]

/-- A remote read at the log's length is its newest head. -/
theorem RemoteAt.eq_headOf (h : RemoteAt log log.length remote) : remote = headOf log := by
  rw [← h.2]
  simp [headAt]

/-- A publication by another device changes nothing for this one. -/
theorem MemberInv.cons (h : MemberInv name log m) (P : Publication D) :
    MemberInv name (P :: log) m where
  late := h.late
  attempt := h.attempt
  fetched b q r hp := ⟨(h.fetched b q r hp).1, (h.fetched b q r hp).2.cons P⟩
  scanned b q r c hp :=
    ⟨(h.scanned b q r c hp).1, (h.scanned b q r c hp).2.1.cons P, (h.scanned b q r c hp).2.2⟩
  placed b q r c o hp :=
    ⟨(h.placed b q r c o hp).1, (h.placed b q r c o hp).2.1.cons P, (h.placed b q r c o hp).2.2⟩

/-- The user's edit of a path. -/
def Member.edit (m : Member) (p : Text) (e : Option FileEntry) : Member :=
  { m with
    tree := match e with | some e => m.tree.insert p e | none => m.tree.erase p
    edited := p :: m.edited
    late := p :: m.late }

/-- An edit leaves the other paths alone. -/
theorem Member.edit_get {p q : Text} (e : Option FileEntry) (hq : q ≠ p) :
    (m.edit p e).tree[q]? = m.tree[q]? := by
  cases e with
  | none => exact (Lib.getElem?_erase_eq m.tree p q).trans (if_neg (Ne.symm hq))
  | some e => exact (Lib.getElem?_insert_eq m.tree p e q).trans (if_neg (Ne.symm hq))

/-- What is held survives an edit elsewhere. -/
theorem Held.edit (h : Held m base) (p : Text) (e : Option FileEntry) : Held (m.edit p e) base := by
  intro p' e' hstart hbase hhome
  rcases h p' e' hstart hbase fun q hq hqe => hhome q hq (List.mem_cons_of_mem _ hqe) with
    hsec | ⟨q, hq, ht, hb⟩
  · exact .inl hsec
  · refine .inr ⟨q, hq, ?_, hb⟩
    rw [m.edit_get e fun hqp => hhome q hq (by rw [hqp]; exact List.mem_cons_self)]
    exact ht

/-- An edit keeps the invariant. -/
theorem MemberInv.edit (h : MemberInv name log m) (p : Text) (e : Option FileEntry) :
    MemberInv name log (m.edit p e) where
  late := List.cons_subset_cons p h.late
  attempt b hp := (h.attempt b hp).edit p e
  fetched b q r hp := ⟨(h.fetched b q r hp).1.edit p e, (h.fetched b q r hp).2⟩
  scanned b q r c hp := by
    obtain ⟨hheld, hat, htree⟩ := h.scanned b q r c hp
    refine ⟨hheld.edit p e, hat, fun x hx => ?_⟩
    have hne : x ≠ p := fun h => hx (by rw [h]; exact List.mem_cons_self)
    rw [m.edit_get e hne, htree x fun h => hx (List.mem_cons_of_mem _ h)]
  placed b q r c o hp := by
    obtain ⟨hheld, hat, htree, hout⟩ := h.placed b q r c o hp
    refine ⟨hheld.edit p e, hat, fun x hx => ?_, hout⟩
    have hne : x ≠ p := fun h => hx (by rw [h]; exact List.mem_cons_self)
    rw [m.edit_get e hne, htree x fun h => hx (List.mem_cons_of_mem _ h)]

/-- The device after its tree is brought to a merge. -/
def Member.placeAt (m : Member) (base : FileMap) (seq : Nat) (remote captured : FileMap)
    (out : MergeOutcome) : Member :=
  { m with
    tree := bringTo m.tree captured out.merged.files
    recorded := recordedAfter m.recorded captured remote out
    kept := m.kept ++ out.conflicts.filter (·.localOnly)
    phase := .placed base seq remote captured out
    against := remote :: m.against
    made := m.made ++ out.conflicts }

/-- **A placed merge holds on to every local change it was given**: the entry stands, moves to a
conflict copy, or the remote holds the same content. -/
theorem Held.placeAt {captured : FileMap} {out : MergeOutcome} {stamp : Text} (h : Held m base)
    (hlate : m.late ⊆ m.edited) (htree : ∀ q : Text, q ∉ m.late → m.tree[q]? = captured[q]?)
    (hres : MergeResult base captured remote name stamp out.merged.files out.conflicts) (seq : Nat) :
    Held (m.placeAt base seq remote captured out) remote := by
  intro p e hstart hbase hhome
  have hsub : m.made ⊆ m.made ++ out.conflicts := List.subset_append_left _ _
  rcases h p e hstart hbase fun q hq => hhome q (hq.mono hsub) with ⟨q, hq, hsec⟩ | ⟨q, hq, ht, hb⟩
  · refine .inl ⟨q, hq.mono hsub, ?_⟩
    rcases hsec with ⟨c, hc, hcs⟩ | ⟨H, hH, hHe⟩
    · exact .inl ⟨c, List.mem_append_left _ hc, hcs⟩
    · exact .inr ⟨H, List.mem_cons_of_mem _ hH, hHe⟩
  · have hqe : q ∉ m.edited := hhome q (hq.mono hsub)
    have hcap : captured[q]? = some e := (htree q fun hl => hqe (hlate hl)) ▸ ht
    have hget : out.merged.files[q]? = (decideAt base captured remote q).entry :=
      hres.decided q fun c hc hcl => (hres.copyOf c hc).copyPath_ne hcl (.inl (by simp [hcap]))
    have hcopy := hres.complete q
    have hd := decidePath_decided base[q]? captured[q]? remote[q]?
    have secured : ∀ e', remote[q]? = some e' → sameContent e e' = true →
        Secured (m.placeAt base seq remote captured out) p e := fun e' hr hc =>
      ⟨q, hq.mono hsub, .inr ⟨remote, List.mem_cons_self, e', hr, hc⟩⟩
    have live : out.merged.files[q]? = some e → remote[q]? ≠ some e →
        Live (m.placeAt base seq remote captured out) remote p e := fun hm hr =>
      ⟨q, hq.mono hsub, (bringTo_get m.tree captured out.merged.files q).trans
        (by rw [if_pos (hm.trans hcap.symm), ht]), hr⟩
    simp only [decideAt, hcap] at hget hcopy hd
    generalize decidePath base[q]? (some e) remote[q]? = d at hget hcopy hd
    cases hd with
    | agree hr => exact .inl (secured e hr.symm (by simp [sameContent]))
    | remoteMoved _ hlb => exact absurd hlb.symm hb
    | localMoved hlr => exact .inr (live hget (Ne.symm hlr))
    | remoteEdit hl => cases hl
    | localEdit _ hr => exact .inr (live hget (by simp [hr]))
    | @newer le re hl hr _ _ _ hc =>
      cases hl
      exact .inl (secured re hr hc)
    | @localLoses le re hl hr _ _ _ hc =>
      cases hl
      obtain ⟨c, hcm, rfl, hcs, hce⟩ := hcopy .localSide e rfl
      subst hce
      cases hlo : c.localOnly with
      | true =>
        refine .inl ⟨c.path, hq.mono hsub, .inl ⟨c, List.mem_append_right _ ?_, rfl, hcs, hlo, rfl⟩⟩
        exact List.mem_filter.mpr ⟨hcm, hlo⟩
      | false =>
        have hfresh : ∀ x : FileMap, (x[c.copyPath]? ≠ none → captured[c.copyPath]? ≠ none ∨
            remote[c.copyPath]? ≠ none) → x[c.copyPath]? = none := fun x hx => by
          by_contra hne
          exact (hres.copyOf c hcm).copyPath_ne hlo (hx hne) rfl
        have hcapc := hfresh captured .inl
        have hremc := hfresh remote .inr
        have hmc := hres.copied c hcm hlo
        refine .inr ⟨c.copyPath, .copy (hq.mono hsub) (List.mem_append_right _ hcm) hcs hlo, ?_, ?_⟩
        · refine (bringTo_get m.tree captured out.merged.files c.copyPath).trans ?_
          rw [if_neg (by simp [hmc, hcapc]), hmc]
        · simp [hremc]
    | @remoteLoses le re hl hr hlr _ _ hc =>
      cases hl
      exact .inr (live hget fun h => hlr h.symm)

/-- Placing a merge keeps the invariant. -/
theorem MemberInv.placeAt {captured : FileMap} (h : MemberInv name log m)
    (hp : m.phase = .scanned base seq remote captured) (stamp : Text) :
    MemberInv name log
      (m.placeAt base seq remote captured (mergeFiles base captured remote name stamp)) := by
  obtain ⟨hheld, hat, htree⟩ := h.scanned base seq remote captured hp
  have hres := merge_result (.ofFiles base) (.ofFiles captured) (.ofFiles remote) name stamp
  refine ⟨h.late, nofun, nofun, nofun, fun b q r c o ho => ?_⟩
  cases ho
  refine ⟨hheld.placeAt h.late htree hres seq, hat, fun x hx => ?_, fun c hc hl =>
    List.mem_append_right _ (List.mem_filter.mpr ⟨hc, hl⟩), stamp, rfl⟩
  refine (bringTo_get m.tree captured _ x).trans ?_
  split
  · rename_i hcap
    rw [htree x hx, hcap]
  · rfl

/-- A member whose converge is over has nothing to keep. -/
theorem MemberInv.of_idle (hlate : m.late ⊆ m.edited) (hidle : m.phase = .idle) :
    MemberInv name log m :=
  ⟨hlate, fun _ hp => by simp [hidle] at hp, fun _ _ _ hp => by simp [hidle] at hp,
    fun _ _ _ _ hp => by simp [hidle] at hp, fun _ _ _ _ _ hp => by simp [hidle] at hp⟩

/-- What a device's step does to the head log: nothing, or it appends the merge of its newest
head. -/
inductive LogStep (d : D) (name : Text) (kept : List ConflictCopy) (log : List (Publication D)) :
    List (Publication D) → Prop
  | same : LogStep d name kept log log
  | publish {base captured : FileMap} {out : MergeOutcome} (stamp : Text)
      (hout : out = mergeFiles base captured (headOf log) name stamp)
      (hkept : ∀ c ∈ out.conflicts, c.localOnly = true → c ∈ kept) :
      LogStep d name kept log ({ device := d, base, captured, remote := headOf log, out } :: log)

/-- **A step of a device keeps its invariant and appends only merges of the newest head.** -/
theorem MemberInv.step {d : D} {m' : Member} {log' : List (Publication D)} {e : FleetEvent}
    (h : MemberInv name log m) (hs : m.step d name log e = some (m', log')) :
    MemberInv name log' m' ∧ m.kept ⊆ m'.kept ∧ LogStep d name m.kept log log' := by
  have hsame : m.kept ⊆ m.kept := List.Subset.refl _
  cases e with
  | edit p e =>
    cases hs
    exact ⟨h.edit p e, hsame, .same⟩
  | begin =>
    cases hp : m.phase with
    | idle =>
      simp only [Member.step, hp] at hs
      cases hs
      refine ⟨⟨List.nil_subset _, fun b hb => ?_, nofun, nofun, nofun⟩, hsame, .same⟩
      cases hb
      exact fun p e ht hb _ => .inr ⟨p, .self, ht, hb⟩
    | attempt | fetched | scanned | placed => simp [Member.step, hp] at hs
  | fetch =>
    cases hp : m.phase with
    | attempt base =>
      simp only [Member.step, hp] at hs
      cases hs
      refine ⟨⟨h.late, nofun, fun b q r hb => ?_, nofun, nofun⟩, hsame, .same⟩
      cases hb
      exact ⟨h.attempt base hp, remoteAt_headOf log⟩
    | idle | fetched | scanned | placed => simp [Member.step, hp] at hs
  | scan =>
    cases hp : m.phase with
    | fetched base seq remote =>
      simp only [Member.step, hp] at hs
      cases hs
      refine ⟨⟨List.nil_subset _, nofun, nofun, fun b q r c hb => ?_, nofun⟩, hsame, .same⟩
      cases hb
      obtain ⟨hheld, hat⟩ := h.fetched base seq remote hp
      exact ⟨hheld, hat, fun _ _ => rfl⟩
    | idle | attempt | scanned | placed => simp [Member.step, hp] at hs
  | place stamp =>
    cases hp : m.phase with
    | scanned base seq remote captured =>
      simp only [Member.step, hp, Option.ite_none_right_eq_some] at hs
      obtain ⟨-, hs⟩ := hs
      cases hs
      exact ⟨h.placeAt hp stamp, List.subset_append_left _ _, .same⟩
    | idle | attempt | fetched | placed => simp [Member.step, hp] at hs
  | publish =>
    cases hp : m.phase with
    | placed base seq remote captured out =>
      obtain ⟨hheld, hat, -, hkept, stamp, hout⟩ := h.placed base seq remote captured out hp
      simp only [Member.step, hp] at hs
      split at hs
      · cases hs
        exact ⟨.of_idle h.late rfl, hsame, .same⟩
      · split at hs
        · rename_i hseq
          cases hs
          subst hseq
          cases hat.eq_headOf
          exact ⟨.of_idle h.late rfl, hsame, .publish stamp hout hkept⟩
        · cases hs
          refine ⟨⟨h.late, fun b hb => ?_, nofun, nofun, nofun⟩, hsame, .same⟩
          cases hb
          exact hheld
    | idle | attempt | fetched | scanned => simp [Member.step, hp] at hs
  | fail =>
    cases hp : m.phase with
    | idle => simp [Member.step, hp] at hs
    | attempt | fetched | scanned | placed =>
      simp only [Member.step, hp] at hs
      cases hs
      exact ⟨.of_idle h.late rfl, hsame, .same⟩

end

/-! ## The fleet -/

/-- What holds of every fleet a run reaches. -/
structure FleetInv {D : Type} (name : D → Text) (s : Fleet D) : Prop where
  member : ∀ d, MemberInv (name d) s.log (s.member d)
  log : LogOk name s.log
  kept : ∀ P ∈ s.log, ∀ c ∈ P.out.conflicts, c.localOnly = true → c ∈ (s.member P.device).kept

/-- Devices that never converged are in order. -/
theorem fleetInv_fresh {D : Type} {name : D → Text} (tree : D → FileMap) :
    FleetInv name (.fresh tree) :=
  ⟨fun _ => .of_idle (List.nil_subset _) rfl, trivial, fun _ hP => by cases hP⟩

section
variable {D : Type} [DecidableEq D] {name : D → Text} {s s' : Fleet D} {d : D} {e : FleetEvent}

/-- A step of the fleet is a step of the device, next to which the others stand still. -/
theorem Fleet.step_eq (h : s.step name (d, e) = some s') :
    (s.member d).step d (name d) s.log e = some (s'.member d, s'.log) ∧
      ∀ d' ≠ d, s'.member d' = s.member d' := by
  obtain ⟨⟨m, log⟩, hm, rfl⟩ := Option.map_eq_some_iff.mp h
  exact ⟨by simpa using hm, fun d' hd => Function.update_of_ne hd m s.member⟩

/-- **Every step keeps the fleet's invariant.** -/
theorem FleetInv.step (h : FleetInv name s) (hs : s.step name (d, e) = some s') :
    FleetInv name s' := by
  obtain ⟨hmem, hothers⟩ := Fleet.step_eq hs
  obtain ⟨hinv, hkept, hlog⟩ := (h.member d).step hmem
  have hmono : ∀ d', (s.member d').kept ⊆ (s'.member d').kept := fun d' => by
    by_cases hd : d' = d
    · exact hd ▸ hkept
    · rw [hothers d' hd]
      exact List.Subset.refl _
  generalize hl : s'.log = log' at hlog hinv
  refine ⟨fun d' => ?_, ?_, ?_⟩
  · rw [hl]
    by_cases hd : d' = d
    · exact hd ▸ hinv
    · rw [hothers d' hd]
      cases hlog with
      | same => exact h.member d'
      | publish => exact (h.member d').cons _
  · rw [hl]
    cases hlog with
    | same => exact h.log
    | publish stamp hout => exact ⟨⟨rfl, stamp, hout⟩, h.log⟩
  · rw [hl]
    have hold : ∀ P ∈ s.log, ∀ c ∈ P.out.conflicts, c.localOnly = true →
        c ∈ (s'.member P.device).kept := fun P hP c hc hlo => hmono _ (h.kept P hP c hc hlo)
    cases hlog with
    | same => exact hold
    | publish stamp hout hcopies =>
      intro P hP
      rcases List.mem_cons.mp hP with rfl | hP
      · exact fun c hc hlo => hkept (hcopies c hc hlo)
      · exact hold P hP

end

/-! ## No lost update -/

/-- What a completed converge leaves: the head it reports is its recorded base and, but for newer
edits, its tree; and each entry its tree had changed, if the user left its homes alone since, is in
that head at its path or at a conflict copy, has a copy below `.pear/conflicts`, or had its content
in a head the converge merged against. -/
structure Completed {D : Type} (log : List (Publication D)) (m : Member) : Prop where
  reported : m.reported ≠ 0 ∧ m.reported ≤ log.length
  recorded : headAt log m.reported = m.recorded
  tree : ∀ q : Text, q ∉ m.late → m.tree[q]? = m.recorded[q]?
  changes : ∀ p e, m.startTree[p]? = some e → m.startBase[p]? ≠ some e →
    (∀ q, HomeOf m.made p q → q ∉ m.edited) → ∃ q, HomeOf m.made p q ∧ (m.recorded[q]? = some e ∨
      (∃ c ∈ m.kept, c.path = q ∧ c.side = .localSide ∧ c.localOnly = true ∧ c.entry = e) ∨
      ∃ H ∈ m.against, ∃ e', H[q]? = some e' ∧ sameContent e e' = true)

/-- How a publication may change the older head's entry `old` of a path: its device had changed the
path itself, and it knew the old entry as its base, holds the same content, or made a conflict copy
of it, which is in the new head or below the device's `.pear/conflicts`. -/
def Knowing {D : Type} (kept : List ConflictCopy) (P : Publication D) (p : Text) (old : FileEntry) :
    Prop :=
  P.captured[p]? ≠ P.base[p]? ∧ (P.base[p]? = some old ∨
    (∃ e, P.out.merged.files[p]? = some e ∧ sameContent e old = true) ∨
    ∃ c ∈ P.out.conflicts, c.path = p ∧ c.side = .remoteSide ∧ c.entry = old ∧
      if c.localOnly then c ∈ kept else P.out.merged.files[c.copyPath]? = some old)

section
variable {D : Type} {name : D → Text} {log : List (Publication D)}

/-- A converge that completes leaves the head, the base and the tree in step. -/
theorem MemberInv.completed {d : D} {m m' : Member} {log' : List (Publication D)} {nm : Text}
    (h : MemberInv nm log m) (hs : m.step d nm log .publish = some (m', log'))
    (hidle : m'.phase = .idle) : Completed log' m' := by
  cases hp : m.phase with
  | placed base seq remote captured out =>
    obtain ⟨hheld, ⟨hle, hat⟩, htree, -⟩ := h.placed base seq remote captured out hp
    have changes : ∀ p e, m.startTree[p]? = some e → m.startBase[p]? ≠ some e →
        (∀ q, HomeOf m.made p q → q ∉ m.edited) → ∃ q, HomeOf m.made p q ∧
          (out.merged.files[q]? = some e ∨
          (∃ c ∈ m.kept, c.path = q ∧ c.side = .localSide ∧ c.localOnly = true ∧ c.entry = e) ∨
          ∃ H ∈ m.against, ∃ e', H[q]? = some e' ∧ sameContent e e' = true) := by
      intro p e hstart hbase hhome
      rcases hheld p e hstart hbase hhome with ⟨q, hq, hsec⟩ | ⟨q, hq, ht, -⟩
      · exact ⟨q, hq, .inr hsec⟩
      · exact ⟨q, hq, .inl (ht ▸ (htree q fun hl => hhome q hq (h.late hl)).symm)⟩
    simp only [Member.step, hp] at hs
    split at hs
    · rename_i hsame
      rw [Bool.and_eq_true, decide_eq_true_eq, decide_eq_true_eq] at hsame
      cases hs
      exact ⟨⟨hsame.2, hle⟩, hat.trans hsame.1.symm, htree, changes⟩
    · split at hs
      · rename_i hseq
        cases hs
        refine ⟨⟨by simp, by simp [hseq]⟩, ?_, htree, changes⟩
        simp [headAt, ← hseq, headOf]
      · cases hs
        cases hidle
  | idle | attempt | fetched | scanned => simp [Member.step, hp] at hs

/-- A merge changes a remote entry only knowingly. -/
theorem Knowing.of_merge {P : Publication D} {stamp p : Text} {old : FileEntry}
    {kept : List ConflictCopy}
    (hout : P.out = mergeFiles P.base P.captured P.remote (name P.device) stamp)
    (hkept : ∀ c ∈ P.out.conflicts, c.localOnly = true → c ∈ kept)
    (hold : P.remote[p]? = some old) (hne : P.out.merged.files[p]? ≠ some old) :
    Knowing kept P p old := by
  have hres := merge_result (.ofFiles P.base) (.ofFiles P.captured) (.ofFiles P.remote)
    (name P.device) stamp
  rw [show merge _ _ _ (name P.device) stamp = P.out from hout.symm] at hres
  change MergeResult P.base P.captured P.remote _ _ _ _ at hres
  have hget : P.out.merged.files[p]? = (decideAt P.base P.captured P.remote p).entry :=
    hres.decided p fun c hc hcl => (hres.copyOf c hc).copyPath_ne hcl (.inr (by simp [hold]))
  have hcopy := hres.complete p
  have hd := decidePath_decided P.base[p]? P.captured[p]? P.remote[p]?
  rw [hget] at hne
  simp only [decideAt, hold] at hget hcopy hd hne
  unfold Knowing
  generalize P.captured[p]? = l, P.base[p]? = b at hget hcopy hd hne ⊢
  generalize decidePath b l (some old) = dec at hget hcopy hd hne
  cases hd with
  | agree hlr => exact absurd hlr hne
  | remoteMoved | remoteEdit | localLoses => simp_all [Decision.entry]
  | localMoved _ hlb hrb => exact ⟨hlb, .inl hrb.symm⟩
  | localEdit _ hr => cases hr
  | @newer le re hl hr _ hlb _ hc =>
    cases hr
    refine ⟨hlb, .inr (.inl ⟨_, hget, ?_⟩)⟩
    split
    · simp [sameContent]
    · exact hc
  | @remoteLoses le re hl hr _ hlb _ _ _ =>
    cases hr
    obtain ⟨c, hc, hcp, hcs, hce⟩ := hcopy .remoteSide old rfl
    refine ⟨hlb, .inr (.inr ⟨c, hc, hcp, hcs, hce, ?_⟩)⟩
    split
    · rename_i hlo
      exact hkept c hc hlo
    · rename_i hlo
      exact hce ▸ hres.copied c hc (Bool.not_eq_true _ ▸ hlo)

/-- Each head of a log is a merge of the one before it. -/
theorem LogOk.split : ∀ {pre rest : List (Publication D)} {P : Publication D},
    LogOk name (pre ++ P :: rest) → P.remote = headOf rest ∧
      ∃ stamp, P.out = mergeFiles P.base P.captured P.remote (name P.device) stamp
  | [], _, _, h => h.1
  | _ :: _, _, _, h => h.2.split

end

/-- **No update is lost.** In any run of any number of devices and every order of their steps, a
converge that completes is in step with the head it reports and has lost none of its changes, and
every head in the log changes the entries of the head before it only knowingly. -/
theorem fleet_no_lost_update {D : Type} [DecidableEq D] {name : D → Text} {tree : D → FileMap}
    {es : List (D × FleetEvent)} {s : Fleet D}
    (run : Lib.Run (Fleet.step name) (fun _ _ => True) (.fresh tree) es s) :
    (∀ d s', s.step name (d, .publish) = some s' → (s'.member d).phase = .idle →
      Completed s'.log (s'.member d)) ∧
    ∀ pre P rest, s.log = pre ++ P :: rest → ∀ (p : Text) (old : FileEntry),
      (headOf rest)[p]? = some old → (headOf (P :: rest))[p]? ≠ some old →
        Knowing (s.member P.device).kept P p old := by
  have hinv : FleetInv name s :=
    run.invariant (fun _ _ _ hi _ hs => FleetInv.step hi hs) (fleetInv_fresh tree)
  refine ⟨fun d s' hs hidle => ?_, fun pre P rest hl p old hold hne => ?_⟩
  · exact (hinv.member d).completed (Fleet.step_eq hs).1 hidle
  · obtain ⟨hr, stamp, hout⟩ := (hl ▸ hinv.log : LogOk name (pre ++ P :: rest)).split
    exact .of_merge hout (hinv.kept P (by simp [hl])) (hr ▸ hold) hne

/-- Two devices. -/
def twoNames (d : Bool) : Text := if d then "a".toList else "b".toList

/-- Each has its own `f`, that of `a` the newer one. -/
def twoTrees (d : Bool) : FileMap :=
  (testManifest [("f".toList, if d then testEntry 3 30 else testEntry 2 20)]).files

/-- Device `a` merges first and loses the race to `b`, then merges again. -/
def lostRace : List (Bool × FleetEvent) :=
  [(true, .begin), (true, .fetch), (true, .scan), (true, .place []),
    (false, .begin), (false, .fetch), (false, .scan), (false, .place []), (false, .publish),
    (true, .publish), (true, .fetch), (true, .scan), (true, .place [])]

/-- No converge is under way. -/
def MemberPhase.isIdle : MemberPhase → Bool
  | .idle => true
  | _ => false

theorem MemberPhase.eq_idle {p : MemberPhase} (h : p.isIdle = true) : p = .idle := by
  cases p with
  | idle => rfl
  | attempt | fetched | scanned | placed => cases h

/-- Its second attempt completes in step, and replaces the `f` of `b` knowingly. -/
theorem fleet_no_lost_update_add : ∃ s s' : Fleet Bool,
    Lib.Run (Fleet.step twoNames) (fun _ _ => True) (.fresh twoTrees) lostRace s ∧
      s.step twoNames (true, .publish) = some s' ∧ Completed s'.log (s'.member true) ∧
      ∃ P Q, s'.log = [P, Q] ∧ (headOf [Q])["f".toList]? = some (testEntry 2 20) ∧
        Knowing (s'.member P.device).kept P "f".toList (testEntry 2 20) := by
  have hrun : ((Lib.replay (Fleet.step twoNames) (.fresh twoTrees) lostRace).bind fun s =>
      (s.step twoNames (true, .publish)).map fun s' =>
        (s'.member true).phase.isIdle && decide (s'.log.length = 2 ∧
          (headOf s'.log.tail)["f".toList]? = some (testEntry 2 20) ∧
          (headOf s'.log)["f".toList]? ≠ some (testEntry 2 20))) = some true := by
    decide +kernel
  obtain ⟨s, hs, hstep⟩ := Option.bind_eq_some_iff.mp hrun
  obtain ⟨s', hs', hcheck⟩ := Option.map_eq_some_iff.mp hstep
  have run : Lib.Run (Fleet.step twoNames) (fun _ _ => True) (.fresh twoTrees) lostRace s :=
    Lib.Run.of_replay (fun _ _ _ => trivial) hs
  have run' : Lib.Run (Fleet.step twoNames) (fun _ _ => True) (.fresh twoTrees)
      (lostRace ++ [(true, .publish)]) s' :=
    Lib.Run.of_replay (fun _ _ _ => trivial)
      (Lib.replay_append hs (Option.bind_eq_some_iff.mpr ⟨s', hs', rfl⟩))
  obtain ⟨hidle, hcheck⟩ := Bool.and_eq_true_iff.mp hcheck
  obtain ⟨hlen, hold, hne⟩ := of_decide_eq_true hcheck
  obtain ⟨P, Q, hlog⟩ := List.length_eq_two.mp hlen
  rw [hlog] at hold hne
  exact ⟨s, s', run, hs', (fleet_no_lost_update run).1 true s' hs' (MemberPhase.eq_idle hidle), P, Q,
    hlog, hold, (fleet_no_lost_update run').2 [] P [Q] hlog _ _ hold hne⟩

/-- Device `true` adds `f` and loses the race twice: to a head with an equal `f`, then to one with
an edit of that. The head it completes on has the edit, and no copy of the add. -/
theorem fleet_equal_add_superseded :
    ((Lib.replay (Fleet.step fun d : Bool => if d then "a".toList else "b".toList)
      (.fresh fun d => (testManifest (("f".toList, testEntry 1 10) ::
        if d then [("g".toList, testEntry 3 5)] else [])).files)
      [(true, .begin), (true, .fetch), (true, .scan), (true, .place []),
        (false, .begin), (false, .fetch), (false, .scan), (false, .place []), (false, .publish),
        (true, .publish), (true, .fetch), (true, .scan), (true, .place []),
        (false, .edit "f".toList (some (testEntry 2 20))),
        (false, .begin), (false, .fetch), (false, .scan), (false, .place []), (false, .publish),
        (true, .publish), (true, .fetch), (true, .scan), (true, .place []),
        (true, .publish)]).map fun s =>
      let m := s.member true
      ([m.startTree["f".toList]?, m.startBase["f".toList]?], (headOf s.log).toList,
        [m.edited.length, m.made.length, m.kept.length, m.reported])) =
      some ([some (testEntry 1 10), none],
        [("f".toList, testEntry 2 20), ("g".toList, testEntry 3 5)], [0, 0, 0, 3]) ∧
    sameContent (testEntry 1 10) (testEntry 2 20) = false := by
  decide

end Pear
