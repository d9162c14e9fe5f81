import Pear.Relay.Pool

/-!
# What the GC must not collect

Every chunk that a retained head or snapshot row pins has its row in `chunk_refs` and its blob in
the pool (`Covered`). Commits add rows only for chunks that are stored, a rebuild of the refs keeps
what is pinned, and the sweep takes blobs without a row in `chunk_refs`, so every step keeps this.
While a GC holds the lock the rows do not change (`Held`), so at its end they are exactly what its
rebuild made them.
-/

namespace Pear

namespace Relay

/-- The chunk lists of the retained rows of a workspace; `none` for a row that does not parse. -/
def rowChunks (s : Relay) (id : Text) : List (Option (List Text)) :=
  (s.heads[id]?.getD []).map (·.chunks) ++ s.snapshots[id]?.getD []

/-- Every pinned chunk is referenced by its workspace and stored. -/
def Covered (s : Relay) : Prop :=
  ∀ id chunks, some chunks ∈ s.rowChunks id → ∀ h ∈ chunks, (id, h) ∈ s.refs ∧ h ∈ s.blobs

section
variable {s s' : Relay} {grace : Int} {id h : Text} {p : Principal} {req : CommitRequest}

/-- A step that only adds rows to `chunk_refs` and blobs keeps pinned chunks covered. -/
theorem Covered.mono (hc : s.Covered) (hheads : s'.heads = s.heads)
    (hsnap : s'.snapshots = s.snapshots) (hrefs : ∀ x ∈ s.refs, x ∈ s'.refs)
    (hblobs : ∀ x ∈ s.blobs, x ∈ s'.blobs) : s'.Covered := by
  intro id chunks hrow x hx
  have hrow : some chunks ∈ s.rowChunks id := by rwa [rowChunks, hheads, hsnap] at hrow
  obtain ⟨href, hblob⟩ := hc id chunks hrow x hx
  exact ⟨hrefs _ href, hblobs x hblob⟩

/-- A commit of stored chunks keeps them covered. -/
theorem Covered.commit (hc : s.Covered) {chunks : List Text} (hblobs : ∀ x ∈ chunks, x ∈ s.blobs)
    (hrows : ∀ id' row, row ∈ s'.rowChunks id' → row ∈ s.rowChunks id' ∨ id' = id ∧ row = some chunks)
    (hs : s' = { s with heads := s'.heads, snapshots := s'.snapshots, refs := s'.refs })
    (hrefs : ∀ x, x ∈ s'.refs ↔ x ∈ s.refs ∨ x.1 = id ∧ x.2 ∈ chunks) : s'.Covered := by
  intro id' chunks' hrow x hx
  have hb : s'.blobs = s.blobs := by rw [hs]
  rw [hrefs, hb]
  rcases hrows id' _ hrow with hrow | ⟨rfl, hrow⟩
  · obtain ⟨href, hblob⟩ := hc id' chunks' hrow x hx
    exact ⟨.inl href, hblob⟩
  · obtain rfl := Option.some.inj hrow
    exact ⟨.inr ⟨rfl, hx⟩, hblobs x hx⟩

/-- A head commit inserts a row for chunks that are stored. -/
theorem putHead_stored (hp : s.putHead id p req = .ok s') :
    ∃ seq chunks, s' = s.insertHead id seq chunks ∧ ∀ x ∈ chunks, x ∈ s.blobs := by
  unfold putHead at hp
  obtain ⟨_, -, hp⟩ := bind_eq_ok_iff.mp hp
  split at hp
  · obtain ⟨_, -, hp⟩ := bind_eq_ok_iff.mp hp
    obtain ⟨_, hv, hp⟩ := bind_eq_ok_iff.mp hp
    obtain ⟨_, -, hp⟩ := bind_eq_ok_iff.mp hp
    cases hp
    exact ⟨_, _, rfl, fun x hx => ((validateCommit_chunks hv).2 x hx).1⟩
  · cases hp

/-- So does a snapshot. -/
theorem createSnapshot_stored (hp : s.createSnapshot id p req = .ok s') :
    ∃ chunks, s' = s.insertSnapshot id chunks ∧ ∀ x ∈ chunks, x ∈ s.blobs := by
  unfold createSnapshot at hp
  obtain ⟨ws, -, hp⟩ := bind_eq_ok_iff.mp hp
  obtain ⟨_, -, hp⟩ := bind_eq_ok_iff.mp hp
  split at hp
  · obtain ⟨_, -, hp⟩ := bind_eq_ok_iff.mp hp
    obtain ⟨_, hv, hp⟩ := bind_eq_ok_iff.mp hp
    cases hp
    exact ⟨_, rfl, fun x hx => ((validateCommit_chunks hv).2 x hx).1⟩
  · cases hp

/-- The rows after a head commit. -/
theorem rowChunks_insertHead {seq : Int} {chunks : List Text} {id' : Text}
    {row : Option (List Text)} (hrow : row ∈ (s.insertHead id seq chunks).rowChunks id') :
    row ∈ s.rowChunks id' ∨ id' = id ∧ row = some chunks := by
  unfold rowChunks at hrow ⊢
  rw [insertHead, insertChunkRefs_eq] at hrow
  dsimp only at hrow
  rw [Lib.getElem?_insert_eq] at hrow
  by_cases hid : id = id'
  · subst hid
    rw [if_pos rfl, Option.getD_some] at hrow
    rcases List.mem_append.mp hrow with hrow | hrow
    · obtain ⟨r, hr, rfl⟩ := List.mem_map.mp hrow
      rcases List.mem_cons.mp (List.mem_of_mem_take hr) with rfl | hr
      · exact .inr ⟨rfl, rfl⟩
      · exact .inl (List.mem_append_left _ (List.mem_map_of_mem hr))
    · exact .inl (List.mem_append_right _ hrow)
  · rw [if_neg hid] at hrow
    exact .inl hrow

/-- The rows after a snapshot. -/
theorem rowChunks_insertSnapshot {chunks : List Text} {id' : Text} {row : Option (List Text)}
    (hrow : row ∈ (s.insertSnapshot id chunks).rowChunks id') :
    row ∈ s.rowChunks id' ∨ id' = id ∧ row = some chunks := by
  unfold rowChunks at hrow ⊢
  rw [insertSnapshot, insertChunkRefs_eq] at hrow
  dsimp only at hrow
  rw [Lib.getElem?_insert_eq] at hrow
  by_cases hid : id = id'
  · subst hid
    rw [if_pos rfl, Option.getD_some] at hrow
    rcases List.mem_append.mp hrow with hrow | hrow
    · exact .inl (List.mem_append_left _ hrow)
    · rcases List.mem_cons.mp hrow with rfl | hrow
      · exact .inr ⟨rfl, rfl⟩
      · exact .inl (List.mem_append_right _ hrow)
  · rw [if_neg hid] at hrow
    exact .inl hrow

/-! ## The GC -/

/-- The rows a rebuild leaves at a workspace that is gone. -/
theorem mem_gcRebuildRefs_of_gone (hws : id ∉ s.access.workspaces) :
    (id, h) ∈ s.gcRebuildRefs.refs ↔ (id, h) ∈ s.refs := by
  refine ((rebuild_fold (s := s) s.access.workspaces.keys _).2 (id, h)).trans ?_
  simp [List.mem_filter, Std.ExtTreeMap.mem_keys, hws]

/-- A live set holds what its rows pin. -/
theorem mem_live {pinned chunks : List Text} (hl : s.live id = some pinned)
    (hrow : some chunks ∈ s.rowChunks id) : ∀ x ∈ chunks, x ∈ pinned := by
  obtain ⟨lists, hm, rfl⟩ := Option.map_eq_some_iff.mp hl
  have hmem : ∀ (rows : List (Option (List Text))) (lists : List (List Text)),
      rows.mapM (fun row => row) = some lists → ∀ chunks, some chunks ∈ rows → chunks ∈ lists := by
    intro rows
    induction rows with
    | nil => exact fun _ _ _ hin => absurd hin (by simp)
    | cons row rows ih =>
      intro lists hm chunks hin
      rw [List.mapM_cons] at hm
      obtain ⟨first, hfirst, hm⟩ := Option.bind_eq_some_iff.mp hm
      obtain ⟨rest, hrest, hm⟩ := Option.bind_eq_some_iff.mp hm
      cases hm
      rcases List.mem_cons.mp hin with rfl | hin
      · cases hfirst
        exact List.mem_cons_self
      · exact List.mem_cons_of_mem _ (ih rest hrest chunks hin)
  exact fun x hx => List.mem_flatten.mpr ⟨chunks, hmem _ _ hm chunks hrow, hx⟩

/-- A rebuild of the refs keeps pinned chunks covered. -/
theorem Covered.gcRebuildRefs (hc : s.Covered) : s.gcRebuildRefs.Covered := by
  intro id chunks hrow x hx
  have hrow : some chunks ∈ s.rowChunks id := by rwa [gcRebuildRefs_eq] at hrow
  obtain ⟨href, hblob⟩ := hc id chunks hrow x hx
  refine ⟨?_, by rw [gcRebuildRefs_eq]; exact hblob⟩
  by_cases hws : id ∈ s.access.workspaces
  · rw [mem_gcRebuildRefs hws]
    cases hl : s.live id with
    | none => exact href
    | some pinned => exact mem_live hl hrow x hx
  · exact (mem_gcRebuildRefs_of_gone hws).mpr href

/-- A blob that is collected has no row. -/
theorem not_mem_refs_of_collectable (hcol : s.collectable h = true) (id : Text) :
    (id, h) ∉ s.refs := by
  have hrefs : s.hashHasRefs h = false := by
    unfold collectable at hcol
    split at hcol
    · rw [Bool.and_eq_true, Bool.not_eq_true'] at hcol
      exact hcol.1
    · cases hcol
  rw [hashHasRefs, List.any_eq_false] at hrefs
  exact fun hmem => by simpa using hrefs (id, h) hmem

/-! ## Every step -/

/-- A request in flight only adds blobs and rows. -/
theorem advance_adds {blake3 : List UInt8 → Text} {i : Nat} {f : Flight}
    (hs : s.advance blake3 i f = some s') :
    s'.heads = s.heads ∧ s'.snapshots = s.snapshots ∧ s'.access = s.access ∧
      s'.sweeping = s.sweeping ∧ (∀ x ∈ s.refs, x ∈ s'.refs) ∧ (∀ x ∈ s.blobs, x ∈ s'.blobs) ∧
      (s.sweeping.isSome = true → s'.refs = s.refs) := by
  unfold advance at hs
  split at hs
  · split at hs
    · cases hs
      refine ⟨?_, ?_, ?_, ?_, ?_, ?_, ?_⟩
      all_goals rw [storePut_eq]
      · exact fun _ hx => hx
      · exact fun x hx => mem_storePut.mpr (.inr hx)
      · exact fun _ => rfl
    · cases hs
      exact ⟨rfl, rfl, rfl, rfl, fun _ hx => hx, fun _ hx => hx, fun _ => rfl⟩
  · split at hs
    · cases hs
    · rename_i hlock
      cases hs
      exact ⟨rfl, rfl, rfl, rfl, fun x hx => mem_insertChunkRefs.mpr (.inl hx), fun _ hx => hx,
        fun hl => absurd hl hlock⟩
  · cases hs
    exact ⟨rfl, rfl, rfl, rfl, fun _ hx => hx, fun _ hx => hx, fun _ => rfl⟩
  · cases hs
    exact ⟨rfl, rfl, rfl, rfl, fun _ hx => hx, fun _ hx => hx, fun _ => rfl⟩
  · cases hs
    exact ⟨rfl, rfl, rfl, rfl, fun _ hx => hx, fun _ hx => hx, fun _ => rfl⟩

/-- What a step does to the tables and the pool. -/
inductive TableStep (s : Relay) (e : Event) (s' : Relay) : Prop where
  /-- It adds blobs and, unless a GC holds the lock, rows of `chunk_refs`. -/
  | adds (heads : s'.heads = s.heads) (snapshots : s'.snapshots = s.snapshots)
      (refs : ∀ x ∈ s.refs, x ∈ s'.refs) (blobs : ∀ x ∈ s.blobs, x ∈ s'.blobs)
      (held : s.sweeping.isSome = true → s'.refs = s.refs ∧ s'.access = s.access)
      (sweeping : e ≠ .gcDone → s'.sweeping = s.sweeping)
  /-- It commits a row of stored chunks. -/
  | commits (free : s.sweeping.isSome = false) (id : Text) (chunks : List Text)
      (stored : ∀ x ∈ chunks, x ∈ s.blobs)
      (rows : ∀ id' row, row ∈ s'.rowChunks id' →
        row ∈ s.rowChunks id' ∨ id' = id ∧ row = some chunks)
      (same : s' = { s with heads := s'.heads, snapshots := s'.snapshots, refs := s'.refs })
      (refs : ∀ x, x ∈ s'.refs ↔ x ∈ s.refs ∨ x.1 = id ∧ x.2 ∈ chunks)
  /-- A GC rebuilds the rows of `chunk_refs`. -/
  | rebuilds (free : s.sweeping.isSome = false) (cutoff : Int)
      (same : s' = { s with refs := s.gcRebuildRefs.refs, sweeping := some cutoff })
  /-- Its sweep takes a blob. -/
  | collects (hash : Text) (collectable : s.collectable hash = true)
      (same : s' = { s with blobs := s.blobs.erase hash })

/-- A step that leaves tables and pool alone. -/
theorem TableStep.nothing {e : Event} (hheads : s'.heads = s.heads)
    (hsnap : s'.snapshots = s.snapshots) (hrefs : s'.refs = s.refs) (hblobs : s'.blobs = s.blobs)
    (hacc : s.sweeping.isSome = true → s'.access = s.access)
    (hsw : e ≠ .gcDone → s'.sweeping = s.sweeping) : TableStep s e s' :=
  .adds hheads hsnap (fun _ hx => hrefs ▸ hx) (fun _ hx => hblobs ▸ hx)
    (fun hl => ⟨hrefs, hacc hl⟩) hsw

/-- A new request leaves them alone. -/
theorem TableStep.accept {e : Event} (x : Except RelayError Flight) : TableStep s e (s.accept x) := by
  cases x with
  | ok f => exact .nothing rfl rfl rfl rfl (fun _ => rfl) fun _ => rfl
  | error => exact .nothing rfl rfl rfl rfl (fun _ => rfl) fun _ => rfl

/-- What waits for the lock finds it free. -/
theorem free_of_locked {t : Relay} (h : (if s.sweeping.isSome then none else some t) = some s') :
    s.sweeping.isSome = false := by
  split at h
  · cases h
  · rename_i hf
    exact Bool.not_eq_true _ ▸ hf

/-- **What every step does.** -/
theorem tableStep {blake3 : List UInt8 → Text} {e : Event} (hs : s.step blake3 grace e = some s') :
    TableStep s e s' := by
  cases e with
  | tick d | abort i =>
    cases hs
    exact .nothing rfl rfl rfl rfl (fun _ => rfl) fun _ => rfl
  | gcDone =>
    cases hs
    exact .nothing rfl rfl rfl rfl (fun _ => rfl) fun he => absurd rfl he
  | access a =>
    have hfree := free_of_locked hs
    obtain rfl := locked_eq_some hs
    exact .nothing rfl rfl rfl rfl (fun hl => by rw [hfree] at hl; cases hl) fun _ => rfl
  | putChunk | putManyChunks | chunksMissing => exact locked_eq_some hs ▸ .accept _
  | advance i =>
    obtain ⟨f, -, hs⟩ := Option.bind_eq_some_iff.mp hs
    obtain ⟨hheads, hsnap, hacc, hsw, hrefs, hblobs, hheld⟩ := advance_adds hs
    exact .adds hheads hsnap hrefs hblobs (fun hl => ⟨hheld hl, hacc⟩) fun _ => hsw
  | putHead id p req =>
    have hfree := free_of_locked hs
    obtain rfl := locked_eq_some hs
    cases hp : s.putHead id p req with
    | error => exact .nothing rfl rfl rfl rfl (fun _ => rfl) fun _ => rfl
    | ok t =>
      obtain ⟨seq, chunks, rfl, hstored⟩ := putHead_stored hp
      exact .commits hfree id chunks hstored (fun _ _ => rowChunks_insertHead) rfl
        fun _ => mem_insertChunkRefs
  | createSnapshot id p req =>
    have hfree := free_of_locked hs
    obtain rfl := locked_eq_some hs
    cases hp : s.createSnapshot id p req with
    | error => exact .nothing rfl rfl rfl rfl (fun _ => rfl) fun _ => rfl
    | ok t =>
      obtain ⟨chunks, rfl, hstored⟩ := createSnapshot_stored hp
      exact .commits hfree id chunks hstored (fun _ _ => rowChunks_insertSnapshot) rfl
        fun _ => mem_insertChunkRefs
  | gc =>
    have hfree := free_of_locked hs
    obtain rfl := locked_eq_some hs
    exact .rebuilds hfree (s.now - grace) (by rw [gcRebuildRefs_eq])
  | sweep hash =>
    cases hs
    split
    · rename_i hcol
      exact .collects hash hcol rfl
    · exact .nothing rfl rfl rfl rfl (fun _ => rfl) fun _ => rfl

/-- **Every step keeps pinned chunks covered.** -/
theorem Covered.step (hc : s.Covered) {e : Event} (hs : TableStep s e s') : s'.Covered := by
  cases hs with
  | adds hheads hsnap hrefs hblobs => exact hc.mono hheads hsnap hrefs hblobs
  | commits _ id chunks hstored hrows hsame hrefs => exact hc.commit hstored hrows hsame hrefs
  | rebuilds _ cutoff hsame =>
    have hg := hc.gcRebuildRefs
    rw [gcRebuildRefs_eq] at hg
    rw [hsame]
    exact hg
  | collects hash hcol hsame =>
    subst hsame
    intro id chunks hrow x hx
    obtain ⟨href, hblob⟩ := hc id chunks hrow x hx
    refine ⟨href, Std.ExtTreeMap.mem_erase.mpr ⟨fun he => ?_, hblob⟩⟩
    obtain rfl : hash = x := Std.LawfulEqCmp.compare_eq_iff_eq.mp he
    exact not_mem_refs_of_collectable hcol id href

/-- Only the sweep takes blobs, and only those without a row. -/
theorem TableStep.blobs_gone {e : Event} (hs : TableStep s e s') (hh : h ∈ s.blobs)
    (hgone : h ∉ s'.blobs) : ∀ id, (id, h) ∉ s.refs := by
  cases hs with
  | adds _ _ _ hblobs => exact absurd (hblobs h hh) hgone
  | commits _ _ _ _ _ hsame =>
    rw [hsame] at hgone
    exact absurd hh hgone
  | rebuilds _ _ hsame =>
    rw [hsame] at hgone
    exact absurd hh hgone
  | collects hash hcol hsame =>
    subst hsame
    have he : hash = h := by
      by_contra hne
      exact hgone (Std.ExtTreeMap.mem_erase.mpr
        ⟨fun he => hne (Std.LawfulEqCmp.compare_eq_iff_eq.mp he), hh⟩)
    exact he ▸ not_mem_refs_of_collectable hcol

/-- The tables that a GC works on. -/
structure Held (s t : Relay) : Prop where
  heads : t.heads = s.heads
  snapshots : t.snapshots = s.snapshots
  refs : t.refs = s.refs
  access : t.access = s.access
  sweeping : t.sweeping = s.sweeping

/-- **While a GC holds the lock its tables do not change.** -/
theorem Held.step {t t' : Relay} (hh : Held s t) (hlock : s.sweeping.isSome = true) {e : Event}
    (he : e ≠ .gcDone) (hs : TableStep t e t') : Held s t' := by
  have hlock : t.sweeping.isSome = true := by rw [hh.sweeping, hlock]
  cases hs with
  | adds hheads hsnap _ _ hheld hsw =>
    obtain ⟨hrefs, hacc⟩ := hheld hlock
    exact ⟨hheads.trans hh.heads, hsnap.trans hh.snapshots, hrefs.trans hh.refs,
      hacc.trans hh.access, (hsw he).trans hh.sweeping⟩
  | commits hfree | rebuilds hfree =>
    rw [hlock] at hfree
    cases hfree
  | collects _ _ hsame =>
    subst hsame
    exact ⟨hh.heads, hh.snapshots, hh.refs, hh.access, hh.sweeping⟩

/-- The live sets depend on the retained rows only. -/
theorem live_congr {t : Relay} (hheads : t.heads = s.heads) (hsnap : t.snapshots = s.snapshots)
    (id : Text) : t.live id = s.live id := by
  rw [live, live, hheads, hsnap]

/-- **A second rebuild right after the first changes nothing.** -/
theorem gcRebuildRefs_again {t : Relay} (hheads : t.heads = s.heads)
    (hsnap : t.snapshots = s.snapshots) (hacc : t.access = s.access)
    (hrefs : t.refs = s.gcRebuildRefs.refs) (row : Text × Text) :
    row ∈ t.gcRebuildRefs.refs ↔ row ∈ t.refs := by
  obtain ⟨id, h⟩ := row
  by_cases hws : id ∈ t.access.workspaces
  · rw [mem_gcRebuildRefs hws, live_congr hheads hsnap]
    cases hl : s.live id with
    | none => rfl
    | some pinned =>
      rw [hrefs, mem_gcRebuildRefs (hacc ▸ hws), hl]
  · exact mem_gcRebuildRefs_of_gone hws

end

/-- **The GC never collects live content.** From a relay whose pinned chunks are covered, however
uploads, commits and GC runs interleave: every chunk a retained row pins has its row in `chunk_refs`
and its blob; a blob that disappears had no row in `chunk_refs`; and all along a GC's sweep the rows
of a workspace are exactly its live set, or what they were when one of its rows does not parse, and a
GC right after it would change no row. -/
theorem gc_spares_live {blake3 : List UInt8 → Text} {grace : Int} {access : Access}
    {heads : Std.ExtTreeMap Text (List HeadRow) compare}
    {snapshots : Std.ExtTreeMap Text (List (Option (List Text))) compare}
    {refs : List (Text × Text)} {blobs : Std.ExtTreeMap Text Int compare} {now : Int}
    {es : List Event} {s : Relay}
    (hboot : (Relay.boot access heads snapshots refs blobs now).Covered)
    (run : Lib.Run (step blake3 grace) (fun _ _ => True)
      (.boot access heads snapshots refs blobs now) es s) :
    (∀ id chunks, some chunks ∈ s.rowChunks id → ∀ h ∈ chunks, (id, h) ∈ s.refs ∧ h ∈ s.blobs) ∧
    (∀ e s', s.step blake3 grace e = some s' → ∀ h ∈ s.blobs, h ∉ s'.blobs →
      ∀ id, (id, h) ∉ s.refs) ∧
    ∀ s₁ es' s₂, s.step blake3 grace .gc = some s₁ →
      Lib.Run (step blake3 grace) (fun _ e => e ≠ .gcDone) s₁ es' s₂ →
      (∀ id ∈ s.access.workspaces, ∀ h, (id, h) ∈ s₂.refs ↔ match s₂.live id with
        | some pinned => h ∈ pinned
        | none => (id, h) ∈ s.refs) ∧
      ∀ s₃ s₄, s₂.step blake3 grace .gcDone = some s₃ → s₃.step blake3 grace .gc = some s₄ →
        ∀ row, row ∈ s₄.refs ↔ row ∈ s₂.refs := by
  have hcov : s.Covered := run.invariant (I := Covered)
    (fun _ _ _ hi _ hs => hi.step (tableStep hs)) hboot
  refine ⟨hcov, fun e s' hs h hh hgone => (tableStep hs).blobs_gone hh hgone,
    fun s₁ es' s₂ hgc sweep => ?_⟩
  have hfree := free_of_locked hgc
  obtain rfl := locked_eq_some hgc
  have hheld := sweep.invariant (I := Held { s.gcRebuildRefs with sweeping := some (s.now - grace) })
    (fun _ _ _ hi he hs => hi.step rfl he (tableStep hs)) ⟨rfl, rfl, rfl, rfl, rfl⟩
  have hheads : s₂.heads = s.heads := by rw [hheld.heads, gcRebuildRefs_eq]
  have hsnap : s₂.snapshots = s.snapshots := by rw [hheld.snapshots, gcRebuildRefs_eq]
  have hacc : s₂.access = s.access := by rw [hheld.access, gcRebuildRefs_eq]
  refine ⟨fun id hid h => ?_, fun s₃ s₄ hdone hagain row => ?_⟩
  · rw [hheld.refs, live_congr hheads hsnap]
    exact mem_gcRebuildRefs hid
  · have hs₃ : s₃ = { s₂ with sweeping := none } := (Option.some.inj hdone).symm
    obtain rfl := locked_eq_some hagain
    have hrefs : s₃.refs = s.gcRebuildRefs.refs := by rw [hs₃, ← hheld.refs]
    refine (gcRebuildRefs_again (t := s₃) ?_ ?_ ?_ hrefs row).trans (by rw [hs₃])
    · rw [hs₃, ← hheads]
    · rw [hs₃, ← hsnap]
    · rw [hs₃, ← hacc]

/-- An upload, a commit and a GC that finds the blob old: the chunk is live, and stays. -/
theorem gc_spares_live_commit : ∃ s : Relay,
    Lib.replay (step (fun _ => emptyChunk) 600) testRelay (testUpload ++
      [.putHead "w".toList (.user "u".toList) testCommit, .tick 7000, .gc, .sweep emptyChunk]) =
        some s ∧
      some [emptyChunk] ∈ s.rowChunks "w".toList ∧
      ∀ id chunks, some chunks ∈ s.rowChunks id → ∀ h ∈ chunks, (id, h) ∈ s.refs ∧ h ∈ s.blobs := by
  have hrun : ((Lib.replay (step (fun _ => emptyChunk) 600) testRelay (testUpload ++
      [.putHead "w".toList (.user "u".toList) testCommit, .tick 7000, .gc, .sweep emptyChunk])).map
        fun s => decide (some [emptyChunk] ∈ s.rowChunks "w".toList)) = some true := by
    decide
  obtain ⟨s, hs, hlive⟩ := Option.map_eq_some_iff.mp hrun
  have hboot : testRelay.Covered := fun id chunks hrow => by simp [testRelay, boot, rowChunks] at hrow
  exact ⟨s, hs, of_decide_eq_true hlive,
    (gc_spares_live hboot (Lib.Run.of_replay (fun _ _ _ => trivial) hs)).1⟩

end Relay

end Pear
