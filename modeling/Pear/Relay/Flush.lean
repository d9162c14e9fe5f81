import Mathlib
import Pear.Lib.Maps
import Pear.Lib.Runs
import Pear.Text

/-!
# The deferred chunk pool and its flushes

The relay's chunk pool is a `LocalStore` in deferred mode that all threads share: `put` renames the
chunk file into place and queues its shard directory, and `flush` takes the whole queue under its
lock and fsyncs the directories outside it, one by one. `put_head` and `create_snapshot` flush before
they commit a row, a ticker flushes every few seconds, and a put that fills the queue flushes it
itself. `Pool.step` interleaves them, one locked section or system call a step.

A flush only fsyncs what it took itself: what another flush holds at that moment it does not wait
for (`flush_ok_while_backstop_syncs`). Where nothing it answers for is held by another flush, an `Ok`
means that every chunk whose put had returned is durable (`flush_ack_durable`).
-/

namespace Pear.Relay

/-- Pending puts at which a deferred store flushes itself. -/
def deferredFlushThreshold : Nat := 64

/-- The directory of a chunk under `chunks/`: the first two digits of its name. -/
def shardDir (hash : Text) : Text :=
  hash.take 2

/-- Where a put that has renamed its file stands: about to return, about to flush because the queue
is full, in that flush, or returned. -/
inductive PutStage
  | stored | full | flushing | returned
  deriving DecidableEq, Repr

/-- A put: past its presence check, returned because the file was there, or past the rename.
`synced` says whether its shard directory has been fsynced since the rename. -/
inductive Put
  | checked (hash : Text)
  | found (hash : Text)
  | renamed (hash : Text) (stage : PutStage) (synced : Bool)
  deriving DecidableEq, Repr

/-- The chunk of a put that has returned. -/
def Put.returned : Put → Option Text
  | .found hash | .renamed hash .returned _ => some hash
  | _ => none

/-- The chunk a put has renamed into place, and whether its directory was fsynced since. -/
def Put.rename? : Put → Option (Text × Bool)
  | .renamed hash _ synced => some (hash, synced)
  | _ => none

/-- Who calls `flush`: the two commit points, the ticker, or a put. -/
inductive FlushCaller
  | putHead | createSnapshot | backstop
  | put (id : Nat)
  deriving DecidableEq, Repr

/-- The caller commits a row when the flush returns `Ok`. -/
def FlushCaller.commits : FlushCaller → Bool
  | .putHead | .createSnapshot => true
  | _ => false

/-- A running `flush`. `before` are the puts it answers for: those that had renamed a chunk whose put
had returned when it began. `batch` is what it took from the queue, `synced` the directories fsynced
so far, and `failed` is set by the first fsync error. -/
structure Flush where
  caller : FlushCaller
  before : List Nat
  batch : Option (List Text)
  synced : List Text
  failed : Bool

/-- The entry the loop of `flush_batch` fsyncs next: entries of directories it has fsynced are
skipped. -/
def Flush.next (fl : Flush) : Option Text :=
  (fl.batch.getD []).find? (· ∉ fl.synced)

/-- The entries still to fsync: what goes back on the queue on an error. -/
def Flush.remainder (fl : Flush) : List Text :=
  (fl.batch.getD []).filter (· ∉ fl.synced)

/-- A flush that has returned `Ok`, with the puts whose directory was fsynced since their rename by
then. -/
structure FlushAck where
  caller : FlushCaller
  before : List Nat
  durable : List Nat

/-- The deferred store with its puts and flushes. -/
structure Pool where
  chunks : List Text
  puts : Std.ExtTreeMap Nat Put compare
  pending : List Text
  flushes : Std.ExtTreeMap Nat Flush compare
  acked : List FlushAck

namespace Pool

/-- What put `p` has renamed. -/
def rename? (s : Pool) (p : Nat) : Option (Text × Bool) :=
  s.puts[p]?.bind Put.rename?

/-- Some put of this chunk has returned. -/
def acknowledged (s : Pool) (hash : Text) : Bool :=
  s.puts.keys.any fun p => s.puts[p]?.bind Put.returned = some hash

/-- The puts that renamed a chunk whose put has returned. -/
def answered (s : Pool) : List Nat :=
  s.puts.keys.filter fun p => (s.rename? p).any fun r => s.acknowledged r.1

/-- The puts whose directory was fsynced since their rename. -/
def durable (s : Pool) : List Nat :=
  s.puts.keys.filter fun p => (s.rename? p).any (·.2)

/-- A put that has renamed its file goes from one stage to another. -/
def advance (s : Pool) (p : Nat) (src dst : PutStage) : Option Pool :=
  match s.puts[p]? with
  | some (.renamed hash stage synced) =>
    if stage = src then some { s with puts := s.puts.insert p (.renamed hash dst synced) } else none
  | _ => none

/-- The caller of a flush enters it, or leaves it. -/
def passFlush (s : Pool) (src dst : PutStage) : FlushCaller → Option Pool
  | .put p => s.advance p src dst
  | _ => some s

/-- An fsync of a shard directory covers every file renamed into it so far. -/
def syncDir (s : Pool) (dir : Text) : Pool :=
  { s with puts := s.puts.map fun _ put => match put with
      | .renamed hash stage synced => .renamed hash stage (synced || shardDir hash = dir)
      | put => put }

end Pool

/-- A step: a put checks that its chunk is missing, renames its file and queues the directory, or
returns; a flush begins, takes the queue, fsyncs the next directory or fails to, or requeues what is
left and returns. -/
inductive PoolEvent
  | check (p : Nat) (hash : Text)
  | rename (p : Nat)
  | putReturn (p : Nat)
  | begin (f : Nat) (caller : FlushCaller)
  | take (f : Nat)
  | fsync (f : Nat) (ok : Bool)
  | finish (f : Nat)

/-- One step of the threads that share the store. -/
def Pool.step (s : Pool) : PoolEvent → Option Pool
  | .check p hash =>
    match s.puts[p]? with
    | some _ => none
    | none =>
      let put := if hash ∈ s.chunks then .found hash else .checked hash
      some { s with puts := s.puts.insert p put }
  | .rename p =>
    match s.puts[p]? with
    | some (.checked hash) =>
      let pending := s.pending ++ [shardDir hash]
      let stage := if deferredFlushThreshold ≤ pending.length then .full else .stored
      some { s with
        chunks := hash :: s.chunks
        puts := s.puts.insert p (.renamed hash stage false)
        pending := pending }
    | _ => none
  | .putReturn p => s.advance p .stored .returned
  | .begin f caller =>
    match s.flushes[f]? with
    | some _ => none
    | none => (s.passFlush .full .flushing caller).map fun s' =>
        let fl := { caller, before := s.answered, batch := none, synced := [], failed := false }
        { s' with flushes := s.flushes.insert f fl }
  | .take f =>
    match s.flushes[f]? with
    | some fl =>
      if fl.batch = none then
        some { s with
          pending := []
          flushes := s.flushes.insert f { fl with batch := some s.pending, synced := [] } }
      else none
    | none => none
  | .fsync f ok =>
    match s.flushes[f]? with
    | some fl =>
      match fl.next with
      | some dir =>
        if fl.failed then none
        else if ok then
          some { s.syncDir dir with
            flushes := s.flushes.insert f { fl with synced := dir :: fl.synced } }
        else some { s with flushes := s.flushes.insert f { fl with failed := true } }
      | none => none
    | none => none
  | .finish f =>
    match s.flushes[f]? with
    | some fl =>
      if fl.batch = none then none
      else if fl.failed then
        -- The remainder goes ahead of what was put since the drain.
        (s.passFlush .flushing .returned fl.caller).map fun s' =>
          { s' with pending := fl.remainder ++ s.pending, flushes := s.flushes.erase f }
      else if fl.next = none then
        (s.passFlush .flushing .returned fl.caller).map fun s' =>
          { s' with
            flushes := s.flushes.erase f
            acked := { caller := fl.caller, before := fl.before, durable := s.durable } :: s.acked }
      else none
    | none => none

/-- The store as a relay opens it over the chunk files it finds: nothing is queued. -/
def Pool.boot (chunks : List Text) : Pool where
  chunks := chunks
  puts := ∅
  pending := []
  flushes := ∅
  acked := []

/-! ## What a step does to the renamed chunks -/

namespace Pool

section
variable {s s' : Pool} {p q : Nat} {dir hash : Text} {src dst : PutStage} {caller : FlushCaller}

/-- A put's presence in the map of puts, seen through its rename. -/
theorem mem_keys_of_rename? (h : s.rename? p ≠ none) : p ∈ s.puts.keys := by
  refine Lib.mem_keys_iff.mpr fun hp => h ?_
  simp [rename?, hp]

/-- A flush answers for puts that have renamed. -/
theorem rename?_of_answered (h : p ∈ s.answered) : s.rename? p ≠ none := by
  intro hr
  obtain ⟨-, h⟩ := List.mem_filter.mp h
  simp [hr] at h

/-- A put is durable once its directory was fsynced. -/
theorem mem_durable_iff : p ∈ s.durable ↔ ∃ hash, s.rename? p = some (hash, true) := by
  unfold durable
  rw [List.mem_filter]
  constructor
  · rintro ⟨-, h⟩
    cases hr : s.rename? p with
    | none => simp [hr] at h
    | some r =>
      obtain ⟨hash, synced⟩ := r
      obtain rfl : synced = true := by simpa [hr] using h
      exact ⟨hash, rfl⟩
  · rintro ⟨hash, hr⟩
    exact ⟨mem_keys_of_rename? (by simp [hr]), by simp [hr]⟩

/-- The renames after one put has moved on. -/
theorem rename?_insert (s : Pool) (p : Nat) (put : Put) (q : Nat) :
    (s.puts.insert p put)[q]?.bind Put.rename? = if p = q then put.rename? else s.rename? q := by
  unfold rename?
  rw [Lib.getElem?_insert_eq]
  split <;> rfl

/-- The stage of a put is not seen by its rename, and nothing else changes. -/
theorem advance_same (h : s.advance p src dst = some s') :
    s'.rename? = s.rename? ∧ s'.pending = s.pending ∧ s'.flushes = s.flushes ∧
      s'.acked = s.acked := by
  unfold advance at h
  split at h
  · rename_i hash stage synced hp
    split at h
    · cases h
      refine ⟨funext fun q => (rename?_insert s p _ q).trans ?_, rfl, rfl, rfl⟩
      split
      · rename_i hpq
        subst hpq
        simp [rename?, Put.rename?, hp]
      · rfl
    · cases h
  · cases h

/-- Nor is a caller that enters or leaves a flush. -/
theorem passFlush_same (h : s.passFlush src dst caller = some s') :
    s'.rename? = s.rename? ∧ s'.pending = s.pending ∧ s'.flushes = s.flushes ∧
      s'.acked = s.acked := by
  cases caller with
  | put p => exact advance_same h
  | putHead | createSnapshot | backstop =>
    cases h
    exact ⟨rfl, rfl, rfl, rfl⟩

/-- What an fsync of a directory makes durable. -/
theorem rename?_syncDir (s : Pool) (dir : Text) (p : Nat) :
    (s.syncDir dir).rename? p =
      (s.rename? p).map fun r => (r.1, r.2 || shardDir r.1 = dir) := by
  unfold rename? syncDir
  dsimp only
  rw [Std.ExtTreeMap.getElem?_map]
  cases s.puts[p]? with
  | none => rfl
  | some put => cases put <;> rfl

/-- What is not durable after an fsync of a directory was not before, and is elsewhere. -/
theorem unsynced_of_syncDir (h : (s.syncDir dir).rename? p = some (hash, false)) :
    s.rename? p = some (hash, false) ∧ shardDir hash ≠ dir := by
  rw [rename?_syncDir] at h
  obtain ⟨⟨hash', synced⟩, hr, he⟩ := Option.map_eq_some_iff.mp h
  obtain ⟨rfl, hsync⟩ := Prod.mk.inj he
  obtain ⟨hsynced, hne⟩ := Bool.or_eq_false_iff.mp hsync
  have hsynced : synced = false := hsynced
  subst hsynced
  exact ⟨hr, of_decide_eq_false hne⟩

end

end Pool

section
variable {s s' : Pool}

/-- The loop is over when no entry is left to fsync. -/
theorem Flush.next_eq_none_iff {fl : Flush} : fl.next = none ↔ fl.remainder = [] := by
  unfold next remainder
  rw [List.find?_eq_none, List.filter_eq_nil_iff]

/-- What each step does to the renamed chunks, the queue, the flushes and their acknowledgements. -/
inductive PoolMove (s : Pool) : PoolEvent → Pool → Prop
  | quiet {e : PoolEvent} {s' : Pool} (hrename : s'.rename? = s.rename?)
    (hpending : s'.pending = s.pending) (hflushes : s'.flushes = s.flushes)
    (hacked : s'.acked = s.acked) : PoolMove s e s'
  | renamed {p : Nat} {hash : Text} {s' : Pool} (hp : s.rename? p = none)
    (hrename : ∀ q, s'.rename? q = if p = q then some (hash, false) else s.rename? q)
    (hpending : s'.pending = s.pending ++ [shardDir hash]) (hflushes : s'.flushes = s.flushes)
    (hacked : s'.acked = s.acked) : PoolMove s (.rename p) s'
  | begun {f : Nat} {fl : Flush} {caller : FlushCaller} {s' : Pool} (hf : s.flushes[f]? = none)
    (hbefore : fl.before = s.answered) (hbatch : fl.batch = none)
    (hrename : s'.rename? = s.rename?) (hpending : s'.pending = s.pending)
    (hflushes : s'.flushes = s.flushes.insert f fl) (hacked : s'.acked = s.acked) :
    PoolMove s (.begin f caller) s'
  | taken {f : Nat} {fl : Flush} (hf : s.flushes[f]? = some fl) (hbatch : fl.batch = none) :
    PoolMove s (.take f) { s with
      pending := []
      flushes := s.flushes.insert f { fl with batch := some s.pending, synced := [] } }
  | synced {f : Nat} {fl : Flush} {dir : Text} (hf : s.flushes[f]? = some fl) :
    PoolMove s (.fsync f true) { s.syncDir dir with
      flushes := s.flushes.insert f { fl with synced := dir :: fl.synced } }
  | failed {f : Nat} {fl : Flush} (hf : s.flushes[f]? = some fl) :
    PoolMove s (.fsync f false) { s with flushes := s.flushes.insert f { fl with failed := true } }
  | requeued {f : Nat} {fl : Flush} {s' : Pool} (hf : s.flushes[f]? = some fl)
    (hrename : s'.rename? = s.rename?) (hpending : s'.pending = fl.remainder ++ s.pending)
    (hflushes : s'.flushes = s.flushes.erase f) (hacked : s'.acked = s.acked) :
    PoolMove s (.finish f) s'
  | acked {f : Nat} {fl : Flush} {s' : Pool} (hf : s.flushes[f]? = some fl)
    (hbatch : fl.batch ≠ none) (hnext : fl.next = none) (hrename : s'.rename? = s.rename?)
    (hpending : s'.pending = s.pending) (hflushes : s'.flushes = s.flushes.erase f)
    (hacked : s'.acked =
      { caller := fl.caller, before := fl.before, durable := s.durable } :: s.acked) :
    PoolMove s (.finish f) s'

/-- **Every step is one of these.** -/
theorem Pool.move_of_step {e : PoolEvent} (h : s.step e = some s') : PoolMove s e s' := by
  cases e with
  | check p hash =>
    simp only [step] at h
    split at h
    · cases h
    · rename_i hp
      cases h
      refine .quiet (funext fun q => (rename?_insert s p _ q).trans ?_) rfl rfl rfl
      split
      · rename_i hpq
        subst hpq
        have hnone : s.rename? p = none := by simp [rename?, hp]
        rw [hnone]
        split <;> rfl
      · rfl
  | rename p =>
    simp only [step] at h
    split at h
    · rename_i hash hp
      cases h
      exact .renamed (by simp [rename?, Put.rename?, hp]) (rename?_insert s p _) rfl rfl rfl
    · cases h
  | putReturn p =>
    obtain ⟨hr, hp, hf, ha⟩ := advance_same h
    exact .quiet hr hp hf ha
  | begin f caller =>
    simp only [step] at h
    split at h
    · cases h
    · rename_i hf
      obtain ⟨s₁, hpass, rfl⟩ := Option.map_eq_some_iff.mp h
      obtain ⟨hr, hp, -, ha⟩ := passFlush_same hpass
      exact .begun hf rfl rfl hr hp rfl ha
  | take f =>
    simp only [step] at h
    split at h
    · rename_i fl hf
      split at h
      · rename_i hbatch
        cases h
        exact .taken hf hbatch
      · cases h
    · cases h
  | fsync f ok =>
    simp only [step] at h
    split at h
    · rename_i fl hf
      split at h
      · split at h
        · cases h
        · cases ok with
          | true =>
            cases h
            exact .synced hf
          | false =>
            cases h
            exact .failed hf
      · cases h
    · cases h
  | finish f =>
    simp only [step] at h
    split at h
    · rename_i fl hf
      split at h
      · cases h
      · rename_i hbatch
        split at h
        · obtain ⟨s₁, hpass, rfl⟩ := Option.map_eq_some_iff.mp h
          obtain ⟨hr, -, -, ha⟩ := passFlush_same hpass
          exact .requeued hf hr rfl rfl ha
        · split at h
          · rename_i hnext
            obtain ⟨s₁, hpass, rfl⟩ := Option.map_eq_some_iff.mp h
            obtain ⟨hr, hp, -, -⟩ := passFlush_same hpass
            exact .acked hf hbatch hnext hr hp rfl rfl
          · cases h
    · cases h

/-! ## Who holds the entry of a chunk that is not durable -/

/-- Some flush still has to fsync a directory. -/
def InFlush (flushes : Std.ExtTreeMap Nat Flush compare) (dir : Text) : Prop :=
  ∃ (g : Nat) (gl : Flush), flushes[g]? = some gl ∧ dir ∈ gl.remainder

/-- When a commit's flush takes the queue, every directory it answers for that another flush still
has to fsync is on the queue again. -/
def Pool.Unshared (s : Pool) : PoolEvent → Prop
  | .take f => ∀ fl, s.flushes[f]? = some fl → fl.caller.commits = true →
      ∀ p ∈ fl.before, ∀ hash, s.rename? p = some (hash, false) →
      InFlush s.flushes (shardDir hash) → shardDir hash ∈ s.pending
  | _ => True

/-- What holds of every reachable store: a rename that is not durable has its directory on the queue
or with a flush; a commit's flush that has taken the queue holds the directory of each such rename it
answers for; and the renames of every acknowledged commit are durable. -/
structure PoolInv (s : Pool) : Prop where
  known : ∀ (f : Nat) (fl : Flush), s.flushes[f]? = some fl → ∀ p ∈ fl.before, s.rename? p ≠ none
  cover : ∀ p hash, s.rename? p = some (hash, false) →
    shardDir hash ∈ s.pending ∨ InFlush s.flushes (shardDir hash)
  taken : ∀ (f : Nat) (fl : Flush), s.flushes[f]? = some fl → fl.caller.commits = true →
    fl.batch ≠ none → ∀ p ∈ fl.before, ∀ hash, s.rename? p = some (hash, false) →
    shardDir hash ∈ fl.remainder
  acked : ∀ a ∈ s.acked, a.caller.commits = true → ∀ p ∈ a.before, p ∈ a.durable

/-- A directory with a flush is still with one after the flush `f` has moved on, if `f` keeps it. -/
theorem InFlush.insert {m : Std.ExtTreeMap Nat Flush compare} {f : Nat} {fl' : Flush} {dir : Text}
    (h : InFlush m dir)
    (hkeep : ∀ fl : Flush, m[f]? = some fl → dir ∈ fl.remainder → dir ∈ fl'.remainder) :
    InFlush (m.insert f fl') dir := by
  obtain ⟨g, gl, hg, hd⟩ := h
  by_cases hfg : f = g
  · subst hfg
    exact ⟨f, fl', by simp, hkeep gl hg hd⟩
  · exact ⟨g, gl, by rw [Lib.getElem?_insert_eq, if_neg hfg, hg], hd⟩

/-- Likewise after `f` has returned, if `f` did not hold it. -/
theorem InFlush.erase {m : Std.ExtTreeMap Nat Flush compare} {f : Nat} {dir : Text} (h : InFlush m dir)
    (hnot : ∀ fl : Flush, m[f]? = some fl → dir ∉ fl.remainder) : InFlush (m.erase f) dir := by
  obtain ⟨g, gl, hg, hd⟩ := h
  refine ⟨g, gl, ?_, hd⟩
  rw [Lib.getElem?_erase_eq, if_neg, hg]
  rintro rfl
  exact hnot gl hg hd

/-- What a flush that has not taken the queue has to fsync. -/
theorem Flush.remainder_of_none {fl : Flush} (h : fl.batch = none) : fl.remainder = [] := by
  simp [remainder, h]

/-- What is left to fsync after one more directory. -/
theorem Flush.mem_remainder_synced {fl : Flush} {d dir : Text} (h : d ∈ fl.remainder)
    (hne : d ≠ dir) : d ∈ { fl with synced := dir :: fl.synced }.remainder := by
  obtain ⟨hbatch, hsynced⟩ := List.mem_filter.mp h
  refine List.mem_filter.mpr ⟨hbatch, decide_eq_true fun hmem => ?_⟩
  rcases List.mem_cons.mp hmem with heq | hmem
  · exact hne heq
  · exact of_decide_eq_true hsynced hmem

/-- **Every step keeps the invariant.** -/
theorem PoolInv.step (h : PoolInv s) {e : PoolEvent} (hc : s.Unshared e)
    (hs : s.step e = some s') : PoolInv s' := by
  cases Pool.move_of_step hs with
  | quiet hrename hpending hflushes hacked =>
    exact ⟨by rw [hrename, hflushes]; exact h.known,
      by rw [hrename, hflushes, hpending]; exact h.cover,
      by rw [hrename, hflushes]; exact h.taken, by rw [hacked]; exact h.acked⟩
  | @renamed p hash s' hp hrename hpending hflushes hacked =>
    have hne : ∀ (f : Nat) (fl : Flush), s.flushes[f]? = some fl → ∀ q ∈ fl.before, p ≠ q := by
      rintro f fl hf q hq rfl
      exact h.known f fl hf p hq hp
    refine ⟨fun f fl hf q hq => ?_, fun q hash' hq => ?_, fun f fl hf hcm hb q hq hash' hr => ?_,
      by rw [hacked]; exact h.acked⟩
    · rw [hflushes] at hf
      rw [hrename, if_neg (hne f fl hf q hq)]
      exact h.known f fl hf q hq
    · rw [hpending, hflushes]
      rw [hrename] at hq
      split at hq
      · obtain ⟨rfl, -⟩ := Prod.mk.inj (Option.some.inj hq)
        exact .inl (by simp)
      · exact (h.cover q hash' hq).imp_left (List.mem_append_left _)
    · rw [hflushes] at hf
      rw [hrename, if_neg (hne f fl hf q hq)] at hr
      exact h.taken f fl hf hcm hb q hq hash' hr
  | @begun f fl caller s' hf hbefore hbatch hrename hpending hflushes hacked =>
    refine ⟨fun g gl hg q hq => ?_, fun q hash hq => ?_, fun g gl hg hcm hb => ?_,
      by rw [hacked]; exact h.acked⟩
    · rw [hrename]
      rcases Lib.getElem?_insert_cases (hflushes ▸ hg) with ⟨rfl, rfl⟩ | ⟨-, hg⟩
      · exact Pool.rename?_of_answered (hbefore ▸ hq)
      · exact h.known g gl hg q hq
    · rw [hpending, hflushes]
      refine (h.cover q hash (hrename ▸ hq)).imp_right fun hd => hd.insert fun gl hg => ?_
      cases hf.symm.trans hg
    · rw [hrename]
      rcases Lib.getElem?_insert_cases (hflushes ▸ hg) with ⟨rfl, rfl⟩ | ⟨-, hg⟩
      · exact absurd hbatch hb
      · exact h.taken g gl hg hcm hb
  | @taken f fl hf hbatch =>
    -- The queue is with `f` now: that is where the condition is needed.
    have hqueue : ∀ dir ∈ s.pending,
        dir ∈ { fl with batch := some s.pending, synced := [] }.remainder := fun dir hd => by
      simpa [Flush.remainder] using hd
    refine ⟨fun g gl hg q hq => ?_, fun q hash hq => ?_, fun g gl hg hcm hb q hq hash hr => ?_,
      h.acked⟩
    · rcases Lib.getElem?_insert_cases hg with ⟨rfl, rfl⟩ | ⟨-, hg⟩
      · exact h.known g fl hf q hq
      · exact h.known g gl hg q hq
    · refine .inr ?_
      rcases h.cover q hash hq with hd | hd
      · exact ⟨f, _, by simp, hqueue _ hd⟩
      · refine hd.insert fun gl hg hin => ?_
        obtain rfl := Option.some.inj (hf.symm.trans hg)
        rw [Flush.remainder_of_none hbatch] at hin
        cases hin
    · rcases Lib.getElem?_insert_cases hg with ⟨rfl, rfl⟩ | ⟨-, hg⟩
      · exact hqueue _ ((h.cover q hash hr).elim id (hc fl hf hcm q hq hash hr))
      · exact h.taken g gl hg hcm hb q hq hash hr
  | @synced f fl dir hf =>
    refine ⟨fun g gl hg q hq => ?_, fun q hash hq => ?_, fun g gl hg hcm hb q hq hash hr => ?_,
      h.acked⟩
    · have hne : s.rename? q ≠ none := by
        rcases Lib.getElem?_insert_cases hg with ⟨rfl, rfl⟩ | ⟨-, hg⟩
        · exact h.known g fl hf q hq
        · exact h.known g gl hg q hq
      exact fun hnone => hne (Option.map_eq_none_iff.mp ((Pool.rename?_syncDir s dir q).symm.trans hnone))
    · obtain ⟨hq, hdir⟩ := Pool.unsynced_of_syncDir hq
      refine (h.cover q hash hq).imp_right fun hd => hd.insert fun gl hg hin => ?_
      obtain rfl := Option.some.inj (hf.symm.trans hg)
      exact Flush.mem_remainder_synced hin hdir
    · obtain ⟨hq', hdir⟩ := Pool.unsynced_of_syncDir hr
      rcases Lib.getElem?_insert_cases hg with ⟨rfl, rfl⟩ | ⟨-, hg⟩
      · exact Flush.mem_remainder_synced (h.taken g fl hf hcm hb q hq hash hq') hdir
      · exact h.taken g gl hg hcm hb q hq hash hq'
  | @failed f fl hf =>
    refine ⟨fun g gl hg q hq => ?_, fun q hash hq => ?_, fun g gl hg hcm hb q hq hash hr => ?_,
      h.acked⟩
    · rcases Lib.getElem?_insert_cases hg with ⟨rfl, rfl⟩ | ⟨-, hg⟩
      · exact h.known g fl hf q hq
      · exact h.known g gl hg q hq
    · refine (h.cover q hash hq).imp_right fun hd => hd.insert fun gl hg hin => ?_
      obtain rfl := Option.some.inj (hf.symm.trans hg)
      exact hin
    · rcases Lib.getElem?_insert_cases hg with ⟨rfl, rfl⟩ | ⟨-, hg⟩
      · exact h.taken g fl hf hcm hb q hq hash hr
      · exact h.taken g gl hg hcm hb q hq hash hr
  | @requeued f fl s' hf hrename hpending hflushes hacked =>
    refine ⟨fun g gl hg => ?_, fun q hash hq => ?_, fun g gl hg => ?_, by rw [hacked]; exact h.acked⟩
    · rw [hrename]
      exact h.known g gl (Lib.getElem?_of_erase (hflushes ▸ hg)).2
    · rw [hpending, hflushes]
      rcases h.cover q hash (hrename ▸ hq) with hd | hd
      · exact .inl (List.mem_append_right _ hd)
      · by_cases hin : shardDir hash ∈ fl.remainder
        · exact .inl (List.mem_append_left _ hin)
        · exact .inr (hd.erase fun gl hg => Option.some.inj (hf.symm.trans hg) ▸ hin)
    · rw [hrename]
      exact h.taken g gl (Lib.getElem?_of_erase (hflushes ▸ hg)).2
  | @acked f fl s' hf hbatch hnext hrename hpending hflushes hacked =>
    have hnil : fl.remainder = [] := Flush.next_eq_none_iff.mp hnext
    refine ⟨fun g gl hg => ?_, fun q hash hq => ?_, fun g gl hg => ?_, ?_⟩
    · rw [hrename]
      exact h.known g gl (Lib.getElem?_of_erase (hflushes ▸ hg)).2
    · rw [hpending, hflushes]
      refine (h.cover q hash (hrename ▸ hq)).imp_right fun hd => hd.erase fun gl hg hin => ?_
      obtain rfl := Option.some.inj (hf.symm.trans hg)
      rw [hnil] at hin
      cases hin
    · rw [hrename]
      exact h.taken g gl (Lib.getElem?_of_erase (hflushes ▸ hg)).2
    · rw [hacked]
      intro a ha hcm p hp
      rcases List.mem_cons.mp ha with rfl | ha
      · obtain ⟨⟨hash, synced⟩, hr⟩ := Option.ne_none_iff_exists'.mp (h.known f fl hf p hp)
        cases synced with
        | true => exact Pool.mem_durable_iff.mpr ⟨hash, hr⟩
        | false =>
          have hin := h.taken f fl hf hcm hbatch p hp hash hr
          rw [hnil] at hin
          cases hin
      · exact h.acked a ha hcm p hp

/-- A store that has just been opened is in order. -/
theorem poolInv_boot (chunks : List Text) : PoolInv (.boot chunks) :=
  ⟨fun f fl hf => by simp [Pool.boot] at hf, fun p hash hp => by simp [Pool.rename?, Pool.boot] at hp,
    fun f fl hf => by simp [Pool.boot] at hf, fun a ha => by simp [Pool.boot] at ha⟩

end

/-- **A commit acknowledges durable directory entries.** In every run in which each commit's flush
finds the directories it answers for on the queue, fsynced, or at least with no other flush alone:
when a flush called by `put_head` or `create_snapshot` returns `Ok`, every rename of a chunk whose put
had returned when the flush began has had its directory fsynced since. -/
theorem flush_ack_durable {chunks : List Text} {es : List PoolEvent} {s : Pool}
    (run : Lib.Run Pool.step Pool.Unshared (.boot chunks) es s) :
    ∀ a ∈ s.acked, a.caller.commits = true → ∀ p ∈ a.before, p ∈ a.durable :=
  (run.invariant (fun _ _ _ hi hc hs => hi.step hc hs) (poolInv_boot chunks)).acked

/-- `Unshared` as a check: every directory the flush answers for is on the queue. -/
def Pool.unshared (s : Pool) : PoolEvent → Bool
  | .take f => (s.flushes[f]?.elim [] Flush.before).all fun p =>
      (s.rename? p).all fun r => r.2 || s.pending.contains (shardDir r.1)
  | _ => true

/-- What passes the check is unshared. -/
theorem Pool.unshared_of_check (s : Pool) (e : PoolEvent) (h : s.unshared e = true) :
    s.Unshared e := by
  cases e with
  | take f =>
    intro fl hf _ p hp hash hr _
    have hp : p ∈ s.flushes[f]?.elim [] Flush.before := by rwa [hf]
    have hall := List.all_eq_true.mp h p hp
    simpa [hr] using hall
  | check | rename | putReturn | begin | fsync | finish => trivial

/-- The chunk of a put that has returned is durable when the commit's flush is through. -/
theorem flush_ack_durable_one : ∃ s : Pool,
    s.acked.map (fun a => (a.caller, a.before)) = [(.putHead, [0])] ∧
    ∀ a ∈ s.acked, a.caller.commits = true → ∀ p ∈ a.before, p ∈ a.durable := by
  have hrun : ((Lib.replay (fun s e => if Pool.unshared s e then s.step e else none) (.boot [])
      [.check 0 "af13".toList, .rename 0, .putReturn 0, .begin 0 .putHead, .take 0, .fsync 0 true,
        .finish 0]).map fun s => s.acked.map fun a => (a.caller, a.before)) =
      some [(.putHead, [0])] := by
    decide
  obtain ⟨s, hs, hacked⟩ := Option.map_eq_some_iff.mp hrun
  exact ⟨s, hacked, flush_ack_durable (.of_replay_if Pool.unshared_of_check hs)⟩

/-- The ticker has taken the queue and not yet fsynced it: the commit's flush finds the queue empty
and returns `Ok`, and the chunk it answers for is not durable. -/
theorem flush_ok_while_backstop_syncs : ∃ s : Pool,
    Lib.Run Pool.step (fun _ _ => True) (.boot [])
      [.check 0 "af13".toList, .rename 0, .putReturn 0, .begin 1 .backstop, .take 1,
        .begin 0 .putHead, .take 0, .finish 0] s ∧
    ∃ a ∈ s.acked, a.caller.commits = true ∧ ∃ p ∈ a.before, p ∉ a.durable := by
  have hrun : ((Lib.replay Pool.step (.boot [])
      [.check 0 "af13".toList, .rename 0, .putReturn 0, .begin 1 .backstop, .take 1,
        .begin 0 .putHead, .take 0, .finish 0]).map fun s =>
      s.acked.map fun a => (a.caller, a.before, a.durable)) = some [(.putHead, [0], [])] := by
    decide
  obtain ⟨s, hs, hacked⟩ := Option.map_eq_some_iff.mp hrun
  refine ⟨s, Lib.Run.of_replay (fun _ _ _ => trivial) hs, ?_⟩
  obtain ⟨a, hs, ha⟩ := List.map_eq_singleton_iff.mp hacked
  obtain ⟨hcaller, hbefore, hdurable⟩ : _ ∧ _ ∧ _ := by simpa only [Prod.mk.injEq] using ha
  exact ⟨a, by simp [hs], by rw [hcaller]; rfl, 0, by simp [hbefore], by simp [hdurable]⟩

end Pear.Relay
