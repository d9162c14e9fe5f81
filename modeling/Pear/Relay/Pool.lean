import Pear.Relay
import Pear.Lib.Runs

/-!
# Acknowledged chunks and the pool GC

A commit needs every chunk stored and visible to its principal. An upload or a presence check that
acknowledges a chunk has found both, but a GC takes a chunk's refs away when no retained row pins
it, with no grace, and its blob when it was stored long ago, however lately it was acknowledged.
`PinnedStep` says which steps leave the chunks alone that are promised to someone: acknowledged
within the grace window, or about to be. Under it every promise is kept (`RelayInv`), and so a
commit is never refused for a chunk it was promised (`acknowledged_chunks_commit`).
-/

namespace Pear

/-! ## Promises -/

/-- The chunks a phase has found visible, or made so. -/
def FlightPhase.shown : FlightPhase → List Text
  | .storing _ _ => []
  | .asking _ visible present => visible ++ present
  | .answering hashes => hashes

/-- The chunks a phase has found in the pool, or put there. -/
def FlightPhase.stored : FlightPhase → List Text
  | .storing _ confirmed => confirmed
  | .asking _ _ present => present
  | .answering hashes => hashes

namespace Relay

/-- A chunk acknowledged to a principal less than the grace window ago. -/
def Acked (grace : Int) (s : Relay) (p : Principal) (h : Text) : Prop :=
  ∃ k ∈ s.acks, k.principal = p ∧ k.hash = h ∧ s.now < k.time + grace

/-- A chunk whose visibility is promised to a principal. -/
def Shown (grace : Int) (s : Relay) (p : Principal) (h : Text) : Prop :=
  s.Acked grace p h ∨ ∃ f ∈ s.flights, f.kept = true ∧ f.principal = p ∧ h ∈ f.phase.shown

/-- A chunk whose presence in the pool is promised to a principal. -/
def Stored (grace : Int) (s : Relay) (p : Principal) (h : Text) : Prop :=
  s.Acked grace p h ∨ ∃ f ∈ s.flights, f.kept = true ∧ f.principal = p ∧ h ∈ f.phase.stored

/-- A rebuild of the refs leaves a chunk visible to a user: a workspace the user reads pins it in a
retained row, or references it and has a row that does not parse. -/
def Pinned (s : Relay) (user h : Text) : Prop :=
  ∃ id, s.access.reads id user = true ∧
    match s.live id with
    | some pinned => h ∈ pinned
    | none => (id, h) ∈ s.refs

/-- The steps that leave promised chunks alone: a rebuild of the refs finds them pinned, the sweep
does not collect one whose upload has not recorded its ref yet or which is promised to the admin,
and a change of roles leaves its user a workspace that references it. -/
def PinnedStep (grace : Int) (s : Relay) : Event → Prop
  | .gc => ∀ user h, s.Shown grace (.user user) h → s.Pinned user h
  | .sweep h => s.collectable h = true → ¬ s.Stored grace .admin h ∧
      ∀ f ∈ s.flights, f.kept = true → ∀ todo confirmed, f.phase = .storing todo confirmed →
        h ∉ confirmed
  | .access a => ∀ user h, (s.setAccess a).Shown grace (.user user) h →
      ∃ id, (id, h) ∈ s.refs ∧ a.reads id user = true
  | _ => True

end Relay

/-- What holds along such a run. -/
structure RelayInv (grace : Int) (s : Relay) : Prop where
  kept : ∀ f ∈ s.flights, f.kept = true → s.access.isWriter f.workspace f.principal = true
  shown : ∀ user h, s.Shown grace (.user user) h → s.chunkVisibleTo h user = true
  stored : ∀ p h, s.Stored grace p h → h ∈ s.blobs

namespace Relay

/-! ## The rows of `chunk_refs` -/

section
variable {s s' : Relay} {grace : Int} {p : Principal} {h user id : Text}

/-- Visibility, by the rows. -/
theorem chunkVisibleTo_iff : s.chunkVisibleTo h user = true ↔
    ∃ id, (id, h) ∈ s.refs ∧ s.access.reads id user = true := by
  simp only [chunkVisibleTo, List.any_eq_true, Bool.and_eq_true, decide_eq_true_eq]
  constructor
  · rintro ⟨⟨id, _⟩, hmem, rfl, hr⟩
    exact ⟨id, hmem, hr⟩
  · rintro ⟨id, hmem, hr⟩
    exact ⟨(id, h), hmem, rfl, hr⟩

/-- The rows after an insert. -/
theorem mem_insertChunkRefs {hashes : List Text} {row : Text × Text} :
    row ∈ (s.insertChunkRefs id hashes).refs ↔ row ∈ s.refs ∨ row.1 = id ∧ row.2 ∈ hashes := by
  unfold insertChunkRefs
  dsimp only
  induction hashes generalizing s with
  | nil => simp
  | cons x xs ih =>
    rw [List.foldl_cons]
    refine (ih (s := { s with refs := if (id, x) ∈ s.refs then s.refs else (id, x) :: s.refs })).trans
      ?_
    obtain ⟨a, b⟩ := row
    dsimp only
    split
    · rename_i hin
      constructor
      · rintro (hr | ⟨rfl, hb⟩)
        · exact .inl hr
        · exact .inr ⟨rfl, List.mem_cons_of_mem _ hb⟩
      · rintro (hr | ⟨rfl, hb⟩)
        · exact .inl hr
        · rcases List.mem_cons.mp hb with rfl | hb
          · exact .inl hin
          · exact .inr ⟨rfl, hb⟩
    · simp only [List.mem_cons, Prod.mk.injEq]
      tauto

/-- Inserting rows changes nothing else. -/
theorem insertChunkRefs_eq (s : Relay) (id : Text) (hashes : List Text) :
    s.insertChunkRefs id hashes = { s with refs := (s.insertChunkRefs id hashes).refs } := rfl

/-- A chunk stays visible while rows are only added and nobody's access changes. -/
theorem chunkVisibleTo_mono (hv : s.chunkVisibleTo h user = true) (hr : s.refs ⊆ s'.refs)
    (ha : s'.access = s.access) : s'.chunkVisibleTo h user = true := by
  obtain ⟨id, hmem, hread⟩ := chunkVisibleTo_iff.mp hv
  exact chunkVisibleTo_iff.mpr ⟨id, hr hmem, ha ▸ hread⟩

/-- The fold of the rebuild: rows come from the workspaces' live sets, nothing else changes. -/
theorem rebuild_fold (ids : List Text) : ∀ s' : Relay,
    let t := ids.foldl (fun s' id => match s.live id with
      | some pinned => s'.insertChunkRefs id pinned
      | none => s') s'
    t = { s' with refs := t.refs } ∧ ∀ row, row ∈ t.refs ↔ row ∈ s'.refs ∨
      row.1 ∈ ids ∧ ∃ pinned, s.live row.1 = some pinned ∧ row.2 ∈ pinned := by
  induction ids with
  | nil => simp
  | cons id ids ih =>
    intro s'
    dsimp only
    rw [List.foldl_cons]
    cases hl : s.live id with
    | none =>
      obtain ⟨heq, hrows⟩ := ih s'
      refine ⟨heq, fun row => (hrows row).trans ?_⟩
      rw [List.mem_cons]
      constructor
      · rintro (hr | ⟨hi, hp⟩)
        · exact .inl hr
        · exact .inr ⟨.inr hi, hp⟩
      · rintro (hr | ⟨rfl | hi, pinned, hp, hm⟩)
        · exact .inl hr
        · rw [hl] at hp
          cases hp
        · exact .inr ⟨hi, pinned, hp, hm⟩
    | some pinned =>
      obtain ⟨heq, hrows⟩ := ih (s'.insertChunkRefs id pinned)
      refine ⟨heq, fun row => (hrows row).trans ?_⟩
      rw [mem_insertChunkRefs, List.mem_cons]
      constructor
      · rintro ((hr | ⟨hi, hm⟩) | ⟨hi, hp⟩)
        · exact .inl hr
        · exact .inr ⟨.inl hi, pinned, hi ▸ hl, hm⟩
        · exact .inr ⟨.inr hi, hp⟩
      · rintro (hr | ⟨hi | hi, pinned', hp, hm⟩)
        · exact .inl (.inl hr)
        · rw [hi, hl] at hp
          cases hp
          exact .inl (.inr ⟨hi, hm⟩)
        · exact .inr ⟨hi, pinned', hp, hm⟩

/-- The rebuild changes the rows only. -/
theorem gcRebuildRefs_eq (s : Relay) :
    s.gcRebuildRefs = { s with refs := s.gcRebuildRefs.refs } :=
  (rebuild_fold s.access.workspaces.keys _).1

/-- The rows a rebuild leaves at a workspace: its live set, or what was there when a row of it does
not parse. -/
theorem mem_gcRebuildRefs (hws : id ∈ s.access.workspaces) :
    (id, h) ∈ s.gcRebuildRefs.refs ↔ match s.live id with
      | some pinned => h ∈ pinned
      | none => (id, h) ∈ s.refs := by
  refine ((rebuild_fold (s := s) s.access.workspaces.keys _).2 (id, h)).trans ?_
  simp only [List.mem_filter, Std.ExtTreeMap.mem_keys, hws, if_true, true_and]
  cases s.live id with
  | none => simp
  | some pinned =>
    simp only [decide_eq_true_eq, Option.some.injEq, exists_eq_left']
    tauto

/-- **What a rebuild of the refs leaves visible is what is pinned.** -/
theorem chunkVisibleTo_gcRebuildRefs :
    s.gcRebuildRefs.chunkVisibleTo h user = true ↔ s.Pinned user h := by
  have hacc : s.gcRebuildRefs.access = s.access := by rw [gcRebuildRefs_eq]
  rw [chunkVisibleTo_iff, hacc, Pinned]
  refine exists_congr fun id => and_comm.trans (and_congr_right fun hread => mem_gcRebuildRefs ?_)
  unfold Access.reads at hread
  cases hw : s.access.workspaces[id]? with
  | none => simp [hw] at hread
  | some ws => exact Std.ExtTreeMap.mem_iff_isSome_getElem?.mpr (by simp [hw])

end

end Relay

/-! ## Every step keeps the promises -/

section
variable {s s' : Relay} {grace : Int}

/-- A step that only adds blobs and rows keeps the promises, when those it makes are kept. -/
theorem RelayInv.mono (h : RelayInv grace s) (hacc : s'.access = s.access)
    (hrefs : s.refs ⊆ s'.refs) (hblobs : ∀ x ∈ s.blobs, x ∈ s'.blobs)
    (hkept : ∀ f ∈ s'.flights, f.kept = true →
      s.access.isWriter f.workspace f.principal = true)
    (hshown : ∀ user x, s'.Shown grace (.user user) x →
      s.Shown grace (.user user) x ∨ s'.chunkVisibleTo x user = true)
    (hstored : ∀ p x, s'.Stored grace p x → s.Stored grace p x ∨ x ∈ s'.blobs) :
    RelayInv grace s' where
  kept f hf hk := hacc ▸ hkept f hf hk
  shown user x hx := by
    rcases hshown user x hx with hx | hx
    · exact Relay.chunkVisibleTo_mono (h.shown user x hx) hrefs hacc
    · exact hx
  stored p x hx := by
    rcases hstored p x hx with hx | hx
    · exact hblobs x (h.stored p x hx)
    · exact hx

/-- A request in flight takes a step. -/
theorem RelayInv.setPhase (h : RelayInv grace s) {i : Nat} {f : Flight} {phase : FlightPhase}
    (hf : f ∈ s.flights) (hacc : s'.access = s.access) (hnow : s'.now = s.now)
    (hacks : s'.acks = s.acks) (hflights : s'.flights = s.flights.set i { f with phase })
    (hrefs : s.refs ⊆ s'.refs) (hblobs : ∀ x ∈ s.blobs, x ∈ s'.blobs)
    (hshown : f.kept = true → ∀ user, f.principal = .user user → ∀ x ∈ phase.shown,
      x ∈ f.phase.shown ∨ s'.chunkVisibleTo x user = true)
    (hstored : ∀ x ∈ phase.stored, x ∈ f.phase.stored ∨ x ∈ s'.blobs) :
    RelayInv grace s' := by
  have hmem : ∀ g ∈ s'.flights, g ∈ s.flights ∨ g = { f with phase } := fun g hg =>
    List.mem_or_eq_of_mem_set (hflights ▸ hg)
  have hacked : ∀ p x, s'.Acked grace p x → s.Acked grace p x := fun p x hx => by
    rwa [Relay.Acked, hacks, hnow] at hx
  refine h.mono hacc hrefs hblobs (fun g hg hk => ?_) (fun user x hx => ?_) fun p x hx => ?_
  · rcases hmem g hg with hg | rfl
    · exact h.kept g hg hk
    · exact h.kept f hf hk
  · rcases hx with hx | ⟨g, hg, hk, hp, hx⟩
    · exact .inl (.inl (hacked _ x hx))
    rcases hmem g hg with hg | rfl
    · exact .inl (.inr ⟨g, hg, hk, hp, hx⟩)
    · exact (hshown hk user hp x hx).imp_left fun hx => .inr ⟨f, hf, hk, hp, hx⟩
  · rcases hx with hx | ⟨g, hg, hk, hp, hx⟩
    · exact .inl (.inl (hacked _ x hx))
    rcases hmem g hg with hg | rfl
    · exact .inl (.inr ⟨g, hg, hk, hp, hx⟩)
    · exact (hstored x hx).imp_left fun hx => .inr ⟨f, hf, hk, hp, hx⟩

/-- The blobs after a store. -/
theorem Relay.mem_storePut {hash x : Text} :
    x ∈ (s.storePut hash).blobs ↔ x = hash ∨ x ∈ s.blobs := by
  unfold Relay.storePut
  split
  · rename_i hin
    constructor
    · exact .inr
    · rintro (rfl | hx)
      · exact hin
      · exact hx
  · rw [Std.ExtTreeMap.mem_insert, Std.LawfulEqCmp.compare_eq_iff_eq, eq_comm]

/-- A store changes the blobs only. -/
theorem Relay.storePut_eq (s : Relay) (hash : Text) :
    s.storePut hash = { s with blobs := (s.storePut hash).blobs } := by
  unfold Relay.storePut
  split <;> rfl

/-- **A step of a request in flight keeps the promises.** -/
theorem RelayInv.advance (h : RelayInv grace s) {blake3 : List UInt8 → Text} {i : Nat} {f : Flight}
    (hf : f ∈ s.flights) (hs : s.advance blake3 i f = some s') : RelayInv grace s' := by
  unfold Relay.advance at hs
  split at hs
  · rename_i hash blob todo confirmed hphase
    split at hs
    · cases hs
      refine h.setPhase hf (by rw [Relay.storePut_eq]) (by rw [Relay.storePut_eq])
        (by rw [Relay.storePut_eq]) rfl (by rw [Relay.storePut_eq]; exact List.Subset.refl _)
        (fun x hx => Relay.mem_storePut.mpr (.inr hx)) (fun _ _ _ x hx => by cases hx)
        fun x hx => ?_
      rcases List.mem_cons.mp hx with rfl | hx
      · exact .inr (Relay.mem_storePut.mpr (.inl rfl))
      · exact .inl (by rw [hphase]; exact hx)
    · cases hs
      exact h.setPhase hf rfl rfl rfl rfl (List.Subset.refl _) (fun _ hx => hx)
        (fun _ _ _ x hx => by cases hx) fun x hx => .inl (by rw [hphase]; exact hx)
  · rename_i confirmed hphase
    split at hs
    · cases hs
    cases hs
    refine h.setPhase hf rfl rfl rfl rfl
      (fun row hrow => Relay.mem_insertChunkRefs.mpr (.inl hrow)) (fun _ hx => hx)
      (fun hk user hp x hx => .inr (Relay.chunkVisibleTo_iff.mpr ⟨f.workspace,
        Relay.mem_insertChunkRefs.mpr (.inr ⟨rfl, hx⟩), ?_⟩))
      fun x hx => .inl (by rw [hphase]; exact hx)
    exact Access.reads_of_isWriter (hp ▸ h.kept f hf hk)
  · rename_i hash todo visible present hphase
    cases hs
    have hfound : ∀ x ∈ (if (decide (hash ∈ s.blobs) && decide (hash ∈ visible)) = true then
        hash :: present else present), x ∈ present ∨ x ∈ visible ∧ x ∈ s.blobs := by
      intro x hx
      split at hx
      · rename_i hc
        rw [Bool.and_eq_true, decide_eq_true_eq, decide_eq_true_eq] at hc
        rcases List.mem_cons.mp hx with rfl | hx
        · exact .inr hc.symm
        · exact .inl hx
      · exact .inl hx
    refine h.setPhase hf rfl rfl rfl rfl (List.Subset.refl _) (fun _ hx => hx)
      (fun _ _ _ x hx => .inl ?_) fun x hx => ?_
    · rw [hphase]
      rcases List.mem_append.mp hx with hx | hx
      · exact List.mem_append_left _ hx
      · rcases hfound x hx with hx | hx
        · exact List.mem_append_right _ hx
        · exact List.mem_append_left _ hx.1
    · rcases hfound x hx with hx | hx
      · exact .inl (by rw [hphase]; exact hx)
      · exact .inr hx.2
  · rename_i visible present hphase
    cases hs
    exact h.setPhase hf rfl rfl rfl rfl (List.Subset.refl _) (fun _ hx => hx)
      (fun _ _ _ x hx => .inl (by rw [hphase]; exact List.mem_append_right _ hx))
      fun x hx => .inl (by rw [hphase]; exact hx)
  · rename_i hashes hphase
    cases hs
    have hacked : ∀ p x, Relay.Acked grace { s with
          flights := s.flights.eraseIdx i
          acks := (if f.kept then hashes.map fun hash =>
            ({ workspace := f.workspace, principal := f.principal, hash, time := s.now } : Ack)
            else []) ++ s.acks } p x →
        s.Acked grace p x ∨ f.kept = true ∧ f.principal = p ∧ x ∈ hashes := by
      rintro p x ⟨k, hk, hkp, hkx, hfresh⟩
      rcases List.mem_append.mp hk with hk | hk
      · split at hk
        · rename_i hkept
          obtain ⟨y, hy, rfl⟩ := List.mem_map.mp hk
          exact .inr ⟨hkept, hkp, hkx ▸ hy⟩
        · cases hk
      · exact .inl ⟨k, hk, hkp, hkx, hfresh⟩
    refine h.mono rfl (List.Subset.refl _) (fun _ hx => hx)
      (fun g hg hk => h.kept g (List.mem_of_mem_eraseIdx hg) hk) (fun user x hx => .inl ?_)
      fun p x hx => .inl ?_
    -- An acknowledged chunk was shown and stored by the request that is answered.
    · rcases hx with hx | ⟨g, hg, hrest⟩
      · rcases hacked _ x hx with hx | ⟨hk, hp, hx⟩
        · exact .inl hx
        · exact .inr ⟨f, hf, hk, hp, by rw [hphase]; exact hx⟩
      · exact .inr ⟨g, List.mem_of_mem_eraseIdx hg, hrest⟩
    · rcases hx with hx | ⟨g, hg, hrest⟩
      · rcases hacked _ x hx with hx | ⟨hk, hp, hx⟩
        · exact .inl hx
        · exact .inr ⟨f, hf, hk, hp, by rw [hphase]; exact hx⟩
      · exact .inr ⟨g, List.mem_of_mem_eraseIdx hg, hrest⟩

/-! ## Requests and commits -/

namespace Relay

variable {blake3 : List UInt8 → Text} {id : Text} {p : Principal} {f : Flight}

/-- An upload in flight has not stored anything yet. -/
theorem putChunk_ok {hash : Text} {body : List UInt8}
    (h : s.putChunk blake3 id p hash body = .ok f) : ∃ todo, f = s.flight id p (.storing todo []) := by
  unfold putChunk at h
  obtain ⟨_, -, h⟩ := bind_eq_ok_iff.mp h
  obtain ⟨_, -, h⟩ := bind_eq_ok_iff.mp h
  obtain ⟨_, -, h⟩ := bind_eq_ok_iff.mp h
  obtain ⟨_, -, h⟩ := bind_eq_ok_iff.mp h
  cases h
  exact ⟨_, rfl⟩

/-- Nor has a batch. -/
theorem putManyChunks_ok {entries : List (Text × List UInt8)}
    (h : s.putManyChunks id p entries = .ok f) : ∃ todo, f = s.flight id p (.storing todo []) := by
  unfold putManyChunks at h
  obtain ⟨_, -, h⟩ := bind_eq_ok_iff.mp h
  obtain ⟨_, -, h⟩ := bind_eq_ok_iff.mp h
  obtain ⟨_, -, h⟩ := bind_eq_ok_iff.mp h
  cases h
  exact ⟨_, rfl⟩

/-- A presence check in flight knows which of its chunks are visible. -/
theorem chunksMissing_ok {hashes : List Text} (h : s.chunksMissing id p hashes = .ok f) :
    f = s.flight id p (.asking hashes (hashes.filter fun h => s.visible h p) []) := by
  unfold chunksMissing at h
  obtain ⟨_, -, h⟩ := bind_eq_ok_iff.mp h
  obtain ⟨_, -, h⟩ := bind_eq_ok_iff.mp h
  obtain ⟨_, -, h⟩ := bind_eq_ok_iff.mp h
  cases h
  rfl

/-- A head commit adds rows to `heads` and `chunk_refs`. -/
theorem putHead_ok {req : CommitRequest} (h : s.putHead id p req = .ok s') :
    ∃ seq chunks, s' = s.insertHead id seq chunks := by
  unfold putHead at h
  obtain ⟨_, -, h⟩ := bind_eq_ok_iff.mp h
  split at h
  · obtain ⟨_, -, h⟩ := bind_eq_ok_iff.mp h
    obtain ⟨_, -, h⟩ := bind_eq_ok_iff.mp h
    obtain ⟨_, -, h⟩ := bind_eq_ok_iff.mp h
    cases h
    exact ⟨_, _, rfl⟩
  · cases h

/-- A snapshot adds rows to `snapshots` and `chunk_refs`. -/
theorem createSnapshot_ok {req : CommitRequest} (h : s.createSnapshot id p req = .ok s') :
    ∃ chunks, s' = s.insertSnapshot id chunks := by
  unfold createSnapshot at h
  obtain ⟨ws, -, h⟩ := bind_eq_ok_iff.mp h
  obtain ⟨_, -, h⟩ := bind_eq_ok_iff.mp h
  split at h
  · obtain ⟨_, -, h⟩ := bind_eq_ok_iff.mp h
    obtain ⟨_, -, h⟩ := bind_eq_ok_iff.mp h
    cases h
    exact ⟨_, rfl⟩
  · cases h

end Relay

/-- A new request keeps the promises: what it has found visible is visible. -/
theorem RelayInv.accept (h : RelayInv grace s) {id : Text} {p : Principal} {phase : FlightPhase}
    (hshown : ∀ x ∈ phase.shown, s.visible x p = true) (hstored : phase.stored = []) :
    RelayInv grace { s with flights := s.flight id p phase :: s.flights } := by
  refine h.mono rfl (List.Subset.refl _) (fun _ hx => hx) (fun f hf hk => ?_)
    (fun user x hx => ?_) fun q x hx => .inl ?_
  · rcases List.mem_cons.mp hf with rfl | hf
    · exact hk
    · exact h.kept f hf hk
  · rcases hx with hx | ⟨f, hf, hk, hp, hx⟩
    · exact .inl (.inl hx)
    rcases List.mem_cons.mp hf with rfl | hf
    · obtain rfl : p = .user user := hp
      exact .inr (hshown x hx)
    · exact .inl (.inr ⟨f, hf, hk, hp, hx⟩)
  · rcases hx with hx | ⟨f, hf, hk, hp, hx⟩
    · exact .inl hx
    rcases List.mem_cons.mp hf with rfl | hf
    · rw [show (s.flight id p phase).phase = phase from rfl, hstored] at hx
      cases hx
    · exact .inr ⟨f, hf, hk, hp, hx⟩

/-- Adding rows keeps the promises. -/
theorem RelayInv.of_refs (h : RelayInv grace s) (hs : s' = { s with
    heads := s'.heads, snapshots := s'.snapshots, refs := s'.refs })
    (hrefs : s.refs ⊆ s'.refs) : RelayInv grace s' := by
  rw [hs]
  exact h.mono rfl hrefs (fun _ hx => hx) h.kept (fun _ _ hx => .inl hx) fun _ _ hx => .inl hx

/-- A commit keeps the promises. -/
theorem RelayInv.commit (h : RelayInv grace s) {r : Except RelayError Relay}
    (hr : ∀ s', r = .ok s' → RelayInv grace s') : RelayInv grace (s.commit r) := by
  cases r with
  | ok s' => exact hr s' rfl
  | error => exact h

/-- A step that waits for the lock. -/
theorem Relay.locked_eq_some {t : Relay}
    (h : (if s.sweeping.isSome then none else some t) = some s') : t = s' := by
  split at h
  · cases h
  · exact Option.some.inj h

/-- A change of roles keeps the promises, when those who still write keep sight of theirs. -/
theorem RelayInv.setAccess (h : RelayInv grace s) {a : Access}
    (hc : s.PinnedStep grace (.access a)) : RelayInv grace (s.setAccess a) where
  kept f hf hk := by
    obtain ⟨g, -, rfl⟩ := List.mem_map.mp hf
    exact (Bool.and_eq_true _ _ ▸ hk).2
  shown user x hx := Relay.chunkVisibleTo_iff.mpr (hc user x hx)
  stored p x hx := by
    refine h.stored p x ?_
    rcases hx with ⟨k, hk, hrest⟩ | ⟨f, hf, hk, hp, hx⟩
    · exact .inl ⟨k, (List.mem_filter.mp hk).1, hrest⟩
    · obtain ⟨g, hg, rfl⟩ := List.mem_map.mp hf
      exact .inr ⟨g, hg, (Bool.and_eq_true _ _ ▸ hk).1, hp, hx⟩

/-- A rebuild of the refs keeps the promises, when it finds the promised chunks pinned. -/
theorem RelayInv.gc (h : RelayInv grace s) (hc : s.PinnedStep grace .gc) :
    RelayInv grace { s.gcRebuildRefs with sweeping := some (s.now - grace) } := by
  have hvis := fun user x hx => Relay.chunkVisibleTo_gcRebuildRefs.mpr (hc user x hx)
  have hnew : RelayInv grace { s with refs := s.gcRebuildRefs.refs } :=
    ⟨h.kept, fun user x hx => Relay.gcRebuildRefs_eq s ▸ hvis user x hx, h.stored⟩
  rw [Relay.gcRebuildRefs_eq]
  exact ⟨hnew.kept, hnew.shown, hnew.stored⟩

/-- Collecting a blob keeps the promises, when it is none of those without rows. -/
theorem RelayInv.sweep (h : RelayInv grace s) {hash : Text}
    (hc : s.PinnedStep grace (.sweep hash)) (hcol : s.collectable hash = true) :
    RelayInv grace { s with blobs := s.blobs.erase hash } := by
  obtain ⟨hadmin, hstoring⟩ := hc hcol
  have hrefs : s.hashHasRefs hash = false := by
    unfold Relay.collectable at hcol
    split at hcol
    · simp_all
    · cases hcol
  have hunseen : ∀ user, s.chunkVisibleTo hash user = false := fun user => by
    by_contra hv
    obtain ⟨id, hmem, -⟩ := Relay.chunkVisibleTo_iff.mp (Bool.not_eq_false _ ▸ hv)
    rw [Relay.hashHasRefs, List.any_eq_false] at hrefs
    simpa using hrefs (id, hash) hmem
  refine ⟨h.kept, h.shown, fun p x hx => ?_⟩
  rw [Std.ExtTreeMap.mem_erase]
  refine ⟨fun hxe => ?_, h.stored p x hx⟩
  obtain rfl : hash = x := Std.LawfulEqCmp.compare_eq_iff_eq.mp hxe
  cases p with
  | admin => exact hadmin hx
  | user name =>
    have hshown : ¬ s.Shown grace (.user name) hash := fun hs => by
      have hv := h.shown name hash hs
      rw [hunseen] at hv
      cases hv
    rcases hx with hx | ⟨f, hf, hk, hp, hx⟩
    · exact hshown (.inl hx)
    cases hphase : f.phase with
    | storing todo confirmed =>
      rw [hphase] at hx
      exact hstoring f hf hk todo confirmed hphase hx
    | asking todo visible present =>
      refine hshown (.inr ⟨f, hf, hk, hp, ?_⟩)
      rw [hphase] at hx ⊢
      exact List.mem_append_right _ hx
    | answering hashes => exact hshown (.inr ⟨f, hf, hk, hp, by rw [hphase] at hx ⊢; exact hx⟩)

/-- **Every step that leaves the promised chunks alone keeps the promises.** -/
theorem RelayInv.step (h : RelayInv grace s) {blake3 : List UInt8 → Text} {e : Relay.Event}
    (hc : s.PinnedStep grace e) (hs : s.step blake3 grace e = some s') : RelayInv grace s' := by
  cases e with
  | tick d =>
    cases hs
    have hacked : ∀ p x, Relay.Acked grace { s with now := s.now + d } p x → s.Acked grace p x := by
      rintro p x ⟨k, hk, hp, hx, hfresh⟩
      exact ⟨k, hk, hp, hx, by dsimp only at hfresh; omega⟩
    exact h.mono rfl (List.Subset.refl _) (fun _ hx => hx) h.kept
      (fun _ _ hx => .inl (hx.imp_left (hacked _ _))) fun _ _ hx => .inl (hx.imp_left (hacked _ _))
  | access a => exact Relay.locked_eq_some hs ▸ h.setAccess hc
  | putChunk id p hash body =>
    obtain rfl := Relay.locked_eq_some hs
    cases hf : s.putChunk blake3 id p hash body with
    | error => exact h
    | ok f =>
      obtain ⟨todo, rfl⟩ := Relay.putChunk_ok hf
      exact h.accept (fun x hx => by cases hx) rfl
  | putManyChunks id p entries =>
    obtain rfl := Relay.locked_eq_some hs
    cases hf : s.putManyChunks id p entries with
    | error => exact h
    | ok f =>
      obtain ⟨todo, rfl⟩ := Relay.putManyChunks_ok hf
      exact h.accept (fun x hx => by cases hx) rfl
  | chunksMissing id p hashes =>
    obtain rfl := Relay.locked_eq_some hs
    cases hf : s.chunksMissing id p hashes with
    | error => exact h
    | ok f =>
      obtain rfl := Relay.chunksMissing_ok hf
      refine h.accept (fun x hx => ?_) rfl
      rcases List.mem_append.mp hx with hx | hx
      · exact (List.mem_filter.mp hx).2
      · cases hx
  | advance i =>
    obtain ⟨f, hf, hs⟩ := Option.bind_eq_some_iff.mp hs
    exact h.advance (List.mem_of_getElem? hf) hs
  | abort i =>
    cases hs
    refine h.mono rfl (List.Subset.refl _) (fun _ hx => hx)
      (fun f hf => h.kept f (List.mem_of_mem_eraseIdx hf)) (fun _ _ hx => .inl (hx.imp_right ?_))
      fun _ _ hx => .inl (hx.imp_right ?_) <;>
    exact fun ⟨f, hf, hrest⟩ => ⟨f, List.mem_of_mem_eraseIdx hf, hrest⟩
  | putHead id p req =>
    obtain rfl := Relay.locked_eq_some hs
    refine h.commit fun t ht => ?_
    obtain ⟨seq, chunks, rfl⟩ := Relay.putHead_ok ht
    exact h.of_refs rfl fun row hrow => Relay.mem_insertChunkRefs.mpr (.inl hrow)
  | createSnapshot id p req =>
    obtain rfl := Relay.locked_eq_some hs
    refine h.commit fun t ht => ?_
    obtain ⟨chunks, rfl⟩ := Relay.createSnapshot_ok ht
    exact h.of_refs rfl fun row hrow => Relay.mem_insertChunkRefs.mpr (.inl hrow)
  | gc => exact Relay.locked_eq_some hs ▸ h.gc hc
  | sweep hash =>
    cases hs
    split
    · rename_i hcol
      exact h.sweep hc hcol
    · exact h
  | gcDone =>
    cases hs
    exact ⟨h.kept, h.shown, h.stored⟩

/-- A relay that starts has promised nothing. -/
theorem relayInv_boot (access : Access) (heads : Std.ExtTreeMap Text (List HeadRow) compare)
    (snapshots : Std.ExtTreeMap Text (List (Option (List Text))) compare)
    (refs : List (Text × Text)) (blobs : Std.ExtTreeMap Text Int compare) (now : Int) :
    RelayInv grace (.boot access heads snapshots refs blobs now) where
  kept f hf := by cases hf
  shown user x hx := by rcases hx with ⟨k, hk, -⟩ | ⟨f, hf, -⟩ <;> contradiction
  stored p x hx := by rcases hx with ⟨k, hk, -⟩ | ⟨f, hf, -⟩ <;> contradiction

end

/-! ## Commits of acknowledged chunks -/

/-- The chunks a commit references. -/
def Relay.CommitRequest.chunks (req : Relay.CommitRequest) : List Text :=
  match req.manifestEnc, req.manifest with
  | some _, _ => req.chunkHashes.getD []
  | none, some (some manifest) => Relay.chunkHashes manifest
  | none, _ => []

/-- A check that does not refuse for a chunk that is not in the pool. -/
def SparesPool {α : Type} (x : Except RelayError α) : Prop :=
  ∀ missing first, x ≠ .error (.chunksNotInPool missing first)

section
variable {α β : Type} {x : Except RelayError α} {f : α → Except RelayError β} {e : RelayError}

theorem SparesPool.ok (a : α) : SparesPool (.ok a : Except RelayError α) := nofun

theorem SparesPool.error (h : ∀ missing first, e ≠ .chunksNotInPool missing first) :
    SparesPool (.error e : Except RelayError α) := fun n t heq => h n t (Except.error.inj heq)

/-- Two checks in a row. -/
theorem SparesPool.bind (hx : SparesPool x) (hf : ∀ a, x = .ok a → SparesPool (f a)) :
    SparesPool (x >>= f) := by
  cases x with
  | error e => exact fun n t heq => hx n t (by simpa [Bind.bind, Except.bind] using heq)
  | ok a => exact hf a rfl

theorem SparesPool.refuseIf {c : Prop} [Decidable c]
    (h : ∀ missing first, e ≠ .chunksNotInPool missing first) : SparesPool (refuseIf c e) := by
  unfold Pear.refuseIf
  split
  · exact .error h
  · exact .ok ()

/-- A check of every element of a list. -/
theorem SparesPool.forM {γ : Type} {g : γ → Except RelayError Unit} (h : ∀ c, SparesPool (g c)) :
    ∀ xs : List γ, SparesPool (forM xs g)
  | [] => .ok ()
  | c :: cs => by
    rw [List.forM_cons]
    exact .bind (h c) fun _ _ => SparesPool.forM h cs

end

namespace Relay

section
variable {s : Relay} {id : Text} {p : Principal} {req : CommitRequest}

/-- Chunks that are stored and visible pass. -/
theorem requireChunks_ok {hashes : List Text}
    (h : ∀ x ∈ hashes, x ∈ s.blobs ∧ s.visible x p = true) : s.requireChunks p hashes = .ok () := by
  have hnone : (hashes.eraseDups.filter fun h => !(decide (h ∈ s.blobs) && s.visible h p)) = [] := by
    rw [List.filter_eq_nil_iff]
    intro x hx
    obtain ⟨hb, hv⟩ := h x (List.mem_eraseDups.mp hx)
    simp [hb, hv]
  simp only [requireChunks, hnone]

/-- And only such chunks pass. -/
theorem of_requireChunks {hashes : List Text} (h : s.requireChunks p hashes = .ok ()) :
    ∀ x ∈ hashes, x ∈ s.blobs ∧ s.visible x p = true := by
  intro x hx
  unfold requireChunks at h
  split at h
  · rename_i hnone
    have := List.filter_eq_nil_iff.mp hnone x (List.mem_eraseDups.mpr hx)
    simpa using this
  · cases h

/-- An encrypted commit references its hashes, all of them stored and visible. -/
theorem validateE2eCommit_chunks {decoded : Option Nat} {hashes refs : List Text}
    (h : s.validateE2eCommit p decoded hashes = .ok refs) :
    refs = hashes ∧ ∀ x ∈ refs, x ∈ s.blobs ∧ s.visible x p = true := by
  unfold validateE2eCommit at h
  split at h
  · obtain ⟨_, -, h⟩ := bind_eq_ok_iff.mp h
    obtain ⟨_, -, h⟩ := bind_eq_ok_iff.mp h
    obtain ⟨_, hreq, h⟩ := bind_eq_ok_iff.mp h
    cases h
    exact ⟨rfl, of_requireChunks hreq⟩
  · cases h

/-- What is left of the trust boundary of a plaintext commit after the env policy. -/
def checkTree (s : Relay) (p : Principal) (manifest : Manifest) : Except RelayError (List Text) := do
  forM manifest.files.keys fun path =>
    forM (ancestors path) fun ancestor =>
      refuseIf (manifest.files[ancestor]? ≠ none) (.invalid (.fileIsDirectory path ancestor))
  forM (chunkHashes manifest) fun hash => refuseIf (isChunkHash hash = false) (.badHash hash)
  s.requireChunks p (chunkHashes manifest)
  return chunkHashes manifest

theorem checkTree_chunks {manifest : Manifest} {refs : List Text}
    (h : s.checkTree p manifest = .ok refs) :
    some (chunkHashes manifest) = some refs ∧ ∀ x ∈ refs, x ∈ s.blobs ∧ s.visible x p = true := by
  obtain ⟨_, -, h⟩ := bind_eq_ok_iff.mp h
  obtain ⟨_, -, h⟩ := bind_eq_ok_iff.mp h
  obtain ⟨_, hreq, h⟩ := bind_eq_ok_iff.mp h
  cases h
  exact ⟨rfl, of_requireChunks hreq⟩

/-- A plaintext commit references the chunks of its manifest, all of them stored and visible. -/
theorem validateSubmittedManifest_chunks {raw : Option Manifest} {refs : List Text}
    (h : s.validateSubmittedManifest id p raw = .ok refs) :
    raw.map chunkHashes = some refs ∧ ∀ x ∈ refs, x ∈ s.blobs ∧ s.visible x p = true := by
  unfold validateSubmittedManifest at h
  split at h
  · rename_i manifest
    obtain ⟨_, -, h⟩ := bind_eq_ok_iff.mp h
    obtain ⟨_, -, h⟩ := bind_eq_ok_iff.mp h
    split at h
    · split at h
      · obtain ⟨_, -, h⟩ := bind_eq_ok_iff.mp h
        exact checkTree_chunks h
      · exact checkTree_chunks h
    · exact checkTree_chunks h
  · cases h

/-- **What a commit's trust boundary lets through**: it returns the chunks the commit references, all
of them stored and visible. -/
theorem validateCommit_chunks {ws : RelayWorkspace} {refs : List Text}
    (h : s.validateCommit ws id p req = .ok refs) :
    refs = req.chunks ∧ ∀ x ∈ refs, x ∈ s.blobs ∧ s.visible x p = true := by
  unfold validateCommit at h
  obtain ⟨_, hflavor, h⟩ := bind_eq_ok_iff.mp h
  have hflavor : ws.e2e = req.manifestEnc.isSome := not_not.mp (refuseIf_eq_ok_iff.mp hflavor)
  unfold CommitRequest.chunks
  split at h
  · rename_i he2e
    obtain ⟨enc, henc⟩ := Option.isSome_iff_exists.mp (hflavor ▸ he2e)
    split at h
    · rename_i hashes hhashes
      obtain ⟨rfl, hin⟩ := validateE2eCommit_chunks h
      exact ⟨by simp [henc, hhashes], hin⟩
    · cases h
  · rename_i he2e
    obtain henc : req.manifestEnc = none := by simpa [hflavor] using he2e
    split at h
    · rename_i raw hraw
      obtain ⟨hrefs, hin⟩ := validateSubmittedManifest_chunks h
      obtain ⟨manifest, rfl, rfl⟩ := Option.map_eq_some_iff.mp hrefs
      exact ⟨by rw [henc, hraw], hin⟩
    · cases h

/-- An encrypted commit of stored and visible chunks passes the pool check. -/
theorem sparesPool_validateE2eCommit {decoded : Option Nat} {hashes : List Text}
    (h : ∀ x ∈ hashes, x ∈ s.blobs ∧ s.visible x p = true) :
    SparesPool (s.validateE2eCommit p decoded hashes) := by
  unfold validateE2eCommit
  split
  · refine .bind (.refuseIf (by simp)) fun _ _ => ?_
    refine .bind (.forM (fun _ => .refuseIf (by simp)) _) fun _ _ => ?_
    refine .bind ?_ fun _ _ => .ok _
    rw [requireChunks_ok h]
    exact .ok ()
  · exact .error (by simp)

/-- So does the end of a plaintext commit's trust boundary. -/
theorem sparesPool_checkTree {manifest : Manifest}
    (h : ∀ x ∈ chunkHashes manifest, x ∈ s.blobs ∧ s.visible x p = true) :
    SparesPool (s.checkTree p manifest) := by
  refine .bind (.forM (fun _ => .forM (fun _ => .refuseIf (by simp)) _) _) fun _ _ => ?_
  refine .bind (.forM (fun _ => .refuseIf (by simp)) _) fun _ _ => .bind ?_ fun _ _ => .ok _
  rw [requireChunks_ok h]
  exact .ok ()

/-- And all of it. -/
theorem sparesPool_validateSubmittedManifest {raw : Option Manifest}
    (h : ∀ m, raw = some m → ∀ x ∈ chunkHashes m, x ∈ s.blobs ∧ s.visible x p = true) :
    SparesPool (s.validateSubmittedManifest id p raw) := by
  unfold validateSubmittedManifest
  split
  · rename_i manifest
    refine .bind ?_ fun _ _ => .bind (.refuseIf (by simp)) fun _ _ => ?_
    · cases validate manifest with
      | ok => exact .ok _
      | error => exact .error (by simp)
    have rest : SparesPool (s.checkTree p manifest) := sparesPool_checkTree (h manifest rfl)
    split
    · split
      · exact .bind (.refuseIf (by simp)) fun _ _ => rest
      · exact rest
    · exact rest
  · exact .error (by simp)

/-- A commit whose chunks are stored and visible passes the pool check of its trust boundary. -/
theorem sparesPool_validateCommit {ws : RelayWorkspace}
    (h : ∀ x ∈ req.chunks, x ∈ s.blobs ∧ s.visible x p = true) :
    SparesPool (s.validateCommit ws id p req) := by
  unfold validateCommit
  refine .bind (.refuseIf (by simp)) fun _ hflavor => ?_
  have hflavor : ws.e2e = req.manifestEnc.isSome := not_not.mp (refuseIf_eq_ok_iff.mp hflavor)
  unfold CommitRequest.chunks at h
  split
  · rename_i he2e
    obtain ⟨enc, henc⟩ := Option.isSome_iff_exists.mp (hflavor ▸ he2e)
    split
    · rename_i hashes hhashes
      exact sparesPool_validateE2eCommit fun x hx => h x (by simpa [henc, hhashes] using hx)
    · exact .error (by simp)
  · rename_i he2e
    obtain henc : req.manifestEnc = none := by simpa [hflavor] using he2e
    split
    · rename_i raw hraw
      exact sparesPool_validateSubmittedManifest fun m hm x hx =>
        h x (by simpa [henc, hraw, hm] using hx)
    · exact .error (by simp)

/-- Nor does the role gate refuse for a chunk. -/
theorem sparesPool_requireRole {a : Access} {min : Role} : SparesPool (a.requireRole id p min) := by
  unfold Access.requireRole
  split
  · exact .error (by simp)
  · split
    · exact .error (by simp)
    · split
      · exact .error (by simp)
      · exact .ok _

/-- A head commit of stored and visible chunks is not refused for a chunk. -/
theorem sparesPool_putHead (h : ∀ x ∈ req.chunks, x ∈ s.blobs ∧ s.visible x p = true) :
    SparesPool (s.putHead id p req) := by
  unfold putHead
  refine .bind sparesPool_requireRole fun ws _ => ?_
  split
  · refine .bind (.refuseIf (by simp)) fun _ _ => .bind (sparesPool_validateCommit h) fun _ _ => ?_
    exact .bind (.refuseIf (by simp)) fun _ _ => .ok _
  · exact .error (by simp)

/-- Nor is a snapshot. -/
theorem sparesPool_createSnapshot (h : ∀ x ∈ req.chunks, x ∈ s.blobs ∧ s.visible x p = true) :
    SparesPool (s.createSnapshot id p req) := by
  unfold createSnapshot
  refine .bind sparesPool_requireRole fun ws _ => .bind ?_ fun _ _ => ?_
  · cases req.name with
    | none => exact .ok _
    | some name => exact .refuseIf (by simp)
  · split
    · refine .bind (.refuseIf (by simp)) fun _ _ => ?_
      exact .bind (sparesPool_validateCommit h) fun _ _ => .ok _
    · exact .error (by simp)

end

/-- **A chunk acknowledged to a writer within the grace window is there at the commit.** In every
run whose steps leave the promised chunks alone, a commit of acknowledged chunks finds each of them
stored and visible, and neither a head nor a snapshot is refused for a chunk not in the pool. -/
theorem acknowledged_chunks_commit {blake3 : List UInt8 → Text} {grace : Int} {access : Access}
    {heads : Std.ExtTreeMap Text (List HeadRow) compare}
    {snapshots : Std.ExtTreeMap Text (List (Option (List Text))) compare}
    {refs : List (Text × Text)} {blobs : Std.ExtTreeMap Text Int compare} {now : Int}
    {es : List Event} {s : Relay} {id : Text} {p : Principal} {req : CommitRequest}
    (run : Lib.Run (step blake3 grace) (PinnedStep grace)
      (.boot access heads snapshots refs blobs now) es s)
    (hacked : ∀ h ∈ req.chunks, ∃ k ∈ s.acks, k.workspace = id ∧ k.principal = p ∧ k.hash = h ∧
      s.now < k.time + grace) :
    (∀ h ∈ req.chunks, h ∈ s.blobs ∧ s.visible h p = true) ∧
      ∀ missing first, s.putHead id p req ≠ .error (.chunksNotInPool missing first) ∧
        s.createSnapshot id p req ≠ .error (.chunksNotInPool missing first) := by
  have hinv : RelayInv grace s := run.invariant (fun _ _ _ hi hc hs => RelayInv.step hi hc hs)
    (relayInv_boot access heads snapshots refs blobs now)
  have hfound : ∀ h ∈ req.chunks, h ∈ s.blobs ∧ s.visible h p = true := by
    intro h hh
    obtain ⟨k, hk, -, hp, hx, hfresh⟩ := hacked h hh
    have hack : s.Acked grace p h := ⟨k, hk, hp, hx, hfresh⟩
    refine ⟨hinv.stored p h (.inl hack), ?_⟩
    cases p with
    | admin => rfl
    | user name => exact hinv.shown name h (.inl hack)
  exact ⟨hfound, fun missing first => ⟨sparesPool_putHead hfound missing first,
    sparesPool_createSnapshot hfound missing first⟩⟩

/-! ## An upload, a GC and a commit -/

/-- The BLAKE3 name of the empty chunk. -/
def emptyChunk : Text := "af1349b9f5f9a1a6a0404dea36dcc9499bcb25c9adc112b7cc9a93cae41f3262".toList

/-- A relay with the workspace `w` of the user `u` and an empty pool. -/
def testRelay : Relay :=
  boot { workspaces := .ofList [("w".toList, ⟨some "u".toList, none, false⟩)] compare, teams := ∅ }
    ∅ ∅ [] ∅ 0

/-- The first head of `w`: a file of the empty chunk. -/
def testCommit : CommitRequest :=
  { device := some "d".toList, name := none, baseSeq := 0
    manifest := some (some { Manifest.new "w".toList with
      files := .ofList [("f".toList, ⟨0, 0o644, 1, 0, [emptyChunk]⟩)] compare })
    manifestEnc := none, chunkHashes := none }

/-- The upload of the empty chunk, up to its acknowledgement. -/
def testUpload : List Event :=
  [.putChunk "w".toList (.user "u".toList) emptyChunk [], .advance 0, .advance 0, .advance 0]

/-- The commit of the upload, and a GC after it. -/
def testUpkeep : List Event :=
  [.putHead "w".toList (.user "u".toList) testCommit, .tick 100, .gc, .sweep emptyChunk, .gcDone]

/-- A commit of the same tree over it. -/
def nextCommit : CommitRequest := { testCommit with baseSeq := 1 }

/-- A rebuild finds the chunk of the upload pinned by the head, and a sweep spares it. -/
def sparesUpload (s : Relay) : Event → Bool
  | .gc => s.flights.isEmpty && s.access.reads "w".toList "u".toList &&
      (s.live "w".toList).any (emptyChunk ∈ ·) &&
      s.acks.all fun k => k.principal = .user "u".toList && k.hash = emptyChunk
  | .sweep h => !s.collectable h
  | .access _ => false
  | _ => true

theorem pinnedStep_of_sparesUpload (grace : Int) (s : Relay) (e : Event)
    (h : sparesUpload s e = true) : PinnedStep grace s e := by
  cases e with
  | gc =>
    simp only [sparesUpload, Bool.and_eq_true, List.isEmpty_iff, Option.any_eq_true,
      List.all_eq_true, decide_eq_true_eq] at h
    obtain ⟨⟨⟨hflights, hreads⟩, pinned, hlive, hpinned⟩, hacks⟩ := h
    rintro user x (⟨k, hk, hp, hx, -⟩ | ⟨f, hf, -⟩)
    · obtain ⟨hu, hempty⟩ := hacks k hk
      obtain rfl := Principal.user.inj (hu.symm.trans hp)
      refine ⟨"w".toList, hreads, ?_⟩
      rw [hlive, ← hx, hempty]
      exact hpinned
    · rw [hflights] at hf
      cases hf
  | sweep x =>
    rw [sparesUpload, Bool.not_eq_true'] at h
    intro hx
    rw [h] at hx
    cases hx
  | access a => cases h
  | _ => trivial

/-- A GC runs after the commit of the upload, and the next commit still finds the chunk. -/
theorem acknowledged_chunks_commit_upload : ∃ s : Relay,
    Lib.Run (step (fun _ => emptyChunk) 600) (PinnedStep 600) testRelay (testUpload ++ testUpkeep) s ∧
      (∀ h ∈ nextCommit.chunks, h ∈ s.blobs ∧ s.visible h (.user "u".toList) = true) ∧
      ∀ missing first,
        s.putHead "w".toList (.user "u".toList) nextCommit ≠
          .error (.chunksNotInPool missing first) ∧
        s.createSnapshot "w".toList (.user "u".toList) nextCommit ≠
          .error (.chunksNotInPool missing first) := by
  have hrun : ((Lib.replay (fun s e => if sparesUpload s e then
      step (fun _ => emptyChunk) 600 s e else none) testRelay (testUpload ++ testUpkeep)).map fun s =>
      decide (∀ h ∈ nextCommit.chunks, ∃ k ∈ s.acks, k.workspace = "w".toList ∧
        k.principal = .user "u".toList ∧ k.hash = h ∧ s.now < k.time + 600)) = some true := by
    decide +kernel
  obtain ⟨s, hs, hacked⟩ := Option.map_eq_some_iff.mp hrun
  have run := Lib.Run.of_replay_if (pinnedStep_of_sparesUpload 600) hs
  exact ⟨s, run, acknowledged_chunks_commit run (of_decide_eq_true hacked)⟩

/-- A GC between the acknowledged upload and the commit takes the chunk's ref: the commit is
refused, though no time has passed and the blob is in the pool. -/
theorem acknowledged_chunk_refused :
    ((Lib.replay (step (fun _ => emptyChunk) 600) testRelay (testUpload ++ [.gc, .gcDone])).map
      fun s => (decide (∃ k ∈ s.acks, k.workspace = "w".toList ∧ k.principal = .user "u".toList ∧
          k.hash = emptyChunk ∧ s.now < k.time + 600),
        decide (emptyChunk ∈ s.blobs),
        match s.putHead "w".toList (.user "u".toList) testCommit with
        | .ok _ => none
        | .error e => some e)) =
      some (true, true, some (.chunksNotInPool 1 emptyChunk)) := by
  decide

end Relay

end Pear
