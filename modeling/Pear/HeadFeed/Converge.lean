import Pear.HeadFeed
import Pear.Watch

/-!
# A converge loop follows the head

The companion thread of `converge` (`spawn_head_watcher` in `loops.rs`) takes hints from the head feed and
kicks the watch loop, whose cycle converges. It drops a hint that is not ahead of what the device has
converged, so that the echo of its own commit starts no cycle, and it reads that number while a cycle may
be running. In every state each hint it took is handled (`ConvergeLoop.Handled`): by what the device has
converged, by a kick that no cycle has started after, by the cycle that runs, or by the retry of one that
failed. When both threads are blocked, only the first is left (`converge_follows_head`).
-/

namespace Pear

/-! ## What the watch loop does to its triggers -/

/-- How much had been sent when the last cycle started. -/
def Watch.lastStart (s : Watch) : Nat :=
  match s.phase with
  | .cycling start => start
  | _ => (s.cycles.head?.map (·.1)).getD 0

/-- A cycle is running. -/
def WatchPhase.isCycling : WatchPhase → Bool
  | .cycling _ => true
  | _ => false

/-- A cycle starts or ends. -/
def WatchEvent.ofCycle : WatchEvent → Bool
  | .begin | .finish _ => true
  | _ => false

/-- The cases of a step, by what becomes of the triggers and the cycles. -/
inductive WatchMove (s : Watch) : WatchEvent → Watch → Prop
  | fs {event : Except Text (List (List Text))} :
    WatchMove s (.fs event) { s with sent := s.sent ++ [.fs event] }
  | kick : WatchMove s .kick { s with kicks := s.kicks + 1 }
  | forward : WatchMove s .forward { s with kicks := s.kicks - 1, sent := s.sent ++ [.external] }
  | begin : WatchMove s .begin { s with phase := .cycling s.sent.length }
  | finish {how : CycleEnd} {start : Nat} (hphase : s.phase = .cycling start) :
    WatchMove s (.finish how) { s with
      retry := how = .failed
      phase := if how = .stop then .ended else .top
      cycles := (start, how) :: s.cycles }
  | idle {e : WatchEvent} {taken : Nat} {phase : WatchPhase} (he : e.ofCycle = false)
    (hbefore : s.phase.isCycling = false) (hended : s.phase ≠ .ended)
    (hafter : phase.isCycling = false) : WatchMove s e { s with taken, phase }

section
variable {pearPath : List Text} {s s' : Watch} {e : WatchEvent}

theorem WatchPhase.isCycling_afterWindow (wanted : Bool) :
    (WatchPhase.afterWindow wanted).isCycling = false := by
  cases wanted <;> rfl

/-- **Every step of the watch loop is one of these.** -/
theorem Watch.move_of_step (hs : s.step pearPath e = some s') : WatchMove s e s' := by
  have hidle : ∀ {e : WatchEvent} {taken : Nat} {phase : WatchPhase} (p : WatchPhase), s.phase = p →
      e.ofCycle = false → p.isCycling = false → p ≠ .ended → phase.isCycling = false →
      WatchMove s e { s with taken, phase } :=
    fun p hp he hbefore hended hafter => .idle he (hp ▸ hbefore) (hp ▸ hended) hafter
  unfold Watch.step at hs
  split at hs
  · cases hs
  · cases hs
    exact .fs
  · cases hs
    exact .kick
  · split at hs <;> cases hs
    exact .forward
  · cases hs
    exact .begin
  · cases hs
    exact .finish ‹_›
  · -- The head of the loop.
    rename_i isDir hp
    cases hs
    refine hidle _ hp rfl rfl (by simp) ?_
    cases isDir <;> rfl
  · -- The first trigger.
    rename_i timed hp
    split at hs
    · cases hs
      exact hidle _ hp rfl rfl (by simp) rfl
    · cases hs
      exact hidle _ hp rfl rfl (by simp) rfl
    · cases hs
  · rename_i hp
    split at hs <;> cases hs
    exact hidle _ hp rfl rfl (by simp) rfl
  · -- The window.
    rename_i wanted late hp
    split at hs
    · cases hs
      refine hidle _ hp rfl rfl (by simp) ?_
      split
      · exact WatchPhase.isCycling_afterWindow _
      · rfl
    · cases hs
  · rename_i wanted hp
    split at hs <;> cases hs
    exact hidle _ hp rfl rfl (by simp) (WatchPhase.isCycling_afterWindow _)
  · -- The drain.
    rename_i hp
    split at hs
    · cases hs
      have hsame : WatchMove s .drain { s with taken := s.taken + 1, phase := .draining } :=
        hidle _ hp rfl rfl (by simp) rfl
      rwa [← hp] at hsame
    · cases hs
      exact hidle _ hp rfl rfl (by simp) rfl
  · rename_i timed hp
    split at hs <;> cases hs
    exact hidle _ hp rfl rfl (by simp) rfl
  · rename_i wanted hp
    split at hs <;> cases hs
    exact hidle _ hp rfl rfl (by simp) rfl
  · cases hs

end

section
variable {pearPath : List Text} {s s' : Watch}

/-- A kick is counted, unless the loop has returned. -/
theorem Watch.step_kick (hs : s.step pearPath .kick = some s') :
    s' = { s with kicks := s.kicks + 1 } := by
  unfold Watch.step at hs
  cases hphase : s.phase <;> rw [hphase] at hs <;> cases hs <;> rfl

end

/-! ## The loop -/

/-- Where the companion thread is: at the head of its loop, in `recv_timeout`, with a hint, or about to
kick. -/
inductive HeadWatcher where
  | top
  | waiting
  | got (seq : Nat)
  | kicking
  | ended
deriving DecidableEq

/-- The link, the watch loop, the companion thread, what the cycle that runs knows of the head, and the
head that the control shows. -/
structure ConvergeLoop where
  link : FeedLink
  watch : Watch
  watcher : HeadWatcher
  seen : Option Nat
  headSeq : Nat

/-- What happens next. -/
inductive ConvergeLoopEvent where
  | link (e : LinkEvent)
  /-- The watch loop goes on, or somebody sends it something; only the companion kicks it. -/
  | watch (e : WatchEvent)
  /-- The relay answers `get_head`, or the cycle's own `put_head`, in the cycle. -/
  | look
  | publish (seq : Nat)
  /-- The companion looks at the stop flag, gets a hint, compares it, times out, or kicks. -/
  | check (stopped : Bool)
  | hint
  | decide
  | timeout
  | kick

namespace ConvergeLoop

/-- The companion returns, and drops its end of the channel. -/
def endWatcher (s : ConvergeLoop) : ConvergeLoop :=
  { s with watcher := .ended, link := { s.link with receiver := false } }

/-- What the cycle knows and what the control shows after a step of the watch loop: a cycle starts with
nothing, and reports the last head it knows of. -/
def reported (s : ConvergeLoop) : WatchEvent → Option (Option Nat × Nat)
  | .kick => none
  | .begin => some (none, s.headSeq)
  | .finish .ok => s.seen.map fun n => (some n, n)
  | _ => some (s.seen, s.headSeq)

/-- One step. -/
def step (pearPath : List Text) (workspace : Text) (s : ConvergeLoop) :
    ConvergeLoopEvent → Option ConvergeLoop
  | .link e => (s.link.step workspace e).map fun link => { s with link }
  | .watch e =>
    (s.reported e).bind fun r =>
      (s.watch.step pearPath e).map fun watch => { s with watch, seen := r.1, headSeq := r.2 }
  | .look => if s.watch.phase.isCycling then some { s with seen := some s.link.relay.head } else none
  | .publish seq =>
    if s.watch.phase.isCycling ∧ (∀ n ∈ s.seen, n < seq) ∧ s.seen.isSome ∧ seq ≤ s.link.relay.head then
      some { s with seen := some seq }
    else none
  | .check stopped =>
    if s.watcher = .top then some (if stopped then s.endWatcher else { s with watcher := .waiting })
    else none
  | .hint =>
    match s.watcher, s.link.feed.rx with
    | .waiting, seq :: rx =>
      some { s with watcher := .got seq, link := { s.link with feed := { s.link.feed with rx } } }
    | _, _ => none
  | .decide =>
    match s.watcher with
    | .got seq => some { s with watcher := if seq ≤ s.headSeq then .top else .kicking }
    | _ => none
  | .timeout =>
    if s.watcher = .waiting ∧ s.link.feed.rx = [] then some { s with watcher := .kicking } else none
  | .kick =>
    if s.watcher = .kicking then
      -- A kick fails once the loop has returned.
      match s.watch.step pearPath .kick with
      | some watch => some { s with watch, watcher := .top }
      | none => some s.endWatcher
    else none

/-- A converge loop that has just started. -/
def boot (head : Nat) : ConvergeLoop where
  link := .boot head
  watch := .initial
  watcher := .top
  seen := none
  headSeq := 0

/-- No hint is lost at the relay. -/
def Lossless (s : ConvergeLoop) : ConvergeLoopEvent → Prop
  | .link e => s.link.Lossless e
  | _ => True

/-- A kick was sent since the last cycle started. -/
def Kicked (w : Watch) : Prop :=
  0 < w.kicks ∨ ∃ i, w.lastStart ≤ i ∧ w.sent[i]? = some .external

/-- A number that the companion took is handled. -/
inductive Handled (s : ConvergeLoop) (n : Nat) : Prop
  | converged (h : n ≤ s.headSeq)
  /-- The companion is about to compare it, kicks anyway, or has ended. -/
  | got (h : s.watcher = .got n)
  | kicking (h : s.watcher = .kicking ∨ s.watcher = .ended)
  | kicked (h : Kicked s.watch)
  /-- The cycle that runs knows of a head as late, or has not asked yet. -/
  | cycling (hphase : s.watch.phase.isCycling = true) (h : ∀ m, s.seen = some m → n ≤ m)
  /-- The last cycle failed, and will be retried. -/
  | failed (hphase : s.watch.phase.isCycling = false) (h : s.watch.lastFailed = true)
  | ended (h : s.watch.phase = .ended)

/-! ## What every step keeps -/

/-- The hints on their way are tracked, and nobody knows of a number beyond the head. -/
structure Inv (pearPath : List Text) (workspace : Text) (s : ConvergeLoop) : Prop where
  tracked : s.link.Tracked workspace s.Handled
  watch : s.watch.Inv pearPath
  /-- No cycle started later than the last one. -/
  starts : ∀ c ∈ s.watch.cycles, c.1 ≤ s.watch.lastStart
  sent : s.watch.lastStart ≤ s.watch.sent.length
  seen : ∀ n, s.seen = some n → n ≤ s.link.relay.head
  headSeq : s.headSeq ≤ s.link.relay.head
  /-- What a cycle knows is no earlier than what was converged before. -/
  ahead : ∀ n, s.seen = some n → s.headSeq ≤ n

variable {pearPath : List Text} {workspace : Text} {s s' : ConvergeLoop} {e : ConvergeLoopEvent}

theorem inv_boot (pearPath : List Text) (workspace : Text) (head : Nat) :
    (boot head).Inv pearPath workspace where
  tracked := FeedLink.tracked_boot workspace _ head
  watch := ⟨le_rfl, trivial⟩
  starts := fun c hc => by cases hc
  sent := Nat.zero_le _
  seen := fun n hn => by cases hn
  headSeq := Nat.zero_le _
  ahead := fun n hn => by cases hn

/-- What a step that leaves the head and what the cycle knows alone has to keep. -/
theorem Inv.keep (h : s.Inv pearPath workspace) (hrelay : s'.link.relay = s.link.relay)
    (htracked : s'.link.Tracked workspace s'.Handled) (hwatch : s'.watch.Inv pearPath)
    (hstarts : ∀ c ∈ s'.watch.cycles, c.1 ≤ s'.watch.lastStart)
    (hsent : s'.watch.lastStart ≤ s'.watch.sent.length)
    (hseen : s'.seen = s.seen) (hheadSeq : s'.headSeq = s.headSeq) : s'.Inv pearPath workspace where
  tracked := htracked
  watch := hwatch
  starts := hstarts
  sent := hsent
  seen := fun n hn => by
    rw [hrelay]
    exact h.seen n (hseen ▸ hn)
  headSeq := by
    rw [hrelay, hheadSeq]
    exact h.headSeq
  ahead := fun n hn => by
    rw [hheadSeq]
    exact h.ahead n (hseen ▸ hn)

/-- A step of the companion that leaves the watch loop alone. -/
theorem Inv.companion {watcher : HeadWatcher} (h : s.Inv pearPath workspace)
    (hhandled : ∀ n, s.Handled n → Handled { s with watcher } n) :
    Inv pearPath workspace { s with watcher } :=
  h.keep rfl (h.tracked.mono fun n _ => hhandled n) h.watch h.starts h.sent rfl rfl

/-- The companion ends: nobody waits for its kicks any more. -/
theorem Inv.endWatcher (h : s.Inv pearPath workspace) : s.endWatcher.Inv pearPath workspace :=
  h.keep rfl ⟨h.tracked.inv, h.tracked.due, fun c sub hc hsub n hn =>
    (h.tracked.sent c sub hc hsub n hn).imp_right (·.imp_right fun _ => .kicking (.inr rfl))⟩
    h.watch h.starts h.sent rfl rfl

/-- A companion at the head of its loop or in its wait handles nothing by itself. -/
theorem Handled.rest {n : Nat} {watcher : HeadWatcher} {link : FeedLink} (h : s.Handled n)
    (hwatcher : s.watcher = .top ∨ s.watcher = .waiting) :
    Handled { s with watcher, link } n := by
  cases h with
  | got h => rcases hwatcher with hw | hw <;> cases hw.symm.trans h
  | kicking h => rcases h with h | h <;> rcases hwatcher with hw | hw <;> cases hw.symm.trans h
  | converged h => exact .converged h
  | kicked h => exact .kicked h
  | cycling hphase h => exact .cycling hphase h
  | failed hphase h => exact .failed hphase h
  | ended h => exact .ended h

/-! ## Steps of the watch loop -/

theorem lastStart_cycling {w : Watch} {start : Nat} (h : w.phase = .cycling start) :
    w.lastStart = start := by
  rw [Watch.lastStart, h]

theorem lastStart_rest {w : Watch} (h : w.phase.isCycling = false) :
    w.lastStart = (w.cycles.head?.map (·.1)).getD 0 := by
  unfold Watch.lastStart
  cases hphase : w.phase with
  | cycling start =>
    rw [hphase] at h
    cases h
  | ready | top | waiting | window | draining | ended => rfl

/-- The cycle that ends is the last one that started. -/
theorem lastStart_finish {w : Watch} {start : Nat} {how : CycleEnd} {retry : Bool}
    {phase : WatchPhase} (hphase : phase.isCycling = false) :
    Watch.lastStart { w with retry, phase, cycles := (start, how) :: w.cycles } = start :=
  lastStart_rest hphase

/-- A kick that was sent since the last cycle started stays so while no other one starts. -/
theorem Kicked.keep {w w' : Watch} {new : List Trigger} (h : Kicked w) (hkicks : w.kicks ≤ w'.kicks)
    (hstart : w'.lastStart = w.lastStart) (hsent : w'.sent = w.sent ++ new) : Kicked w' := by
  rcases h with h | ⟨i, hi, hget⟩
  · exact .inl (h.trans_le hkicks)
  · refine .inr ⟨i, hstart ▸ hi, ?_⟩
    rw [hsent, List.getElem?_append_left (List.getElem?_eq_some_iff.mp hget).1, hget]

/-- What has to be said of a step for what is handled to stay so. -/
theorem Handled.keep {n : Nat} (h : s.Handled n) (hwatcher : s'.watcher = s.watcher)
    (hheadSeq : s.headSeq ≤ s'.headSeq) (hkicked : Kicked s.watch → Kicked s'.watch)
    (hcycling : s.watch.phase.isCycling = true → (∀ m, s.seen = some m → n ≤ m) → s'.Handled n)
    (hrest : s.watch.phase.isCycling = false → s.watch.lastFailed = true ∨ s.watch.phase = .ended →
      s'.Handled n) : s'.Handled n := by
  cases h with
  | converged h => exact .converged (h.trans hheadSeq)
  | got h => exact .got (hwatcher.trans h)
  | kicking h => exact .kicking (h.imp hwatcher.trans hwatcher.trans)
  | kicked h => exact .kicked (hkicked h)
  | cycling hphase h => exact hcycling hphase h
  | failed hphase h => exact hrest hphase (.inl h)
  | ended h =>
    refine hrest ?_ (.inr h)
    rw [h]
    rfl

/-- Where the watch loop and the companion do nothing, everything handled stays so. -/
theorem Handled.same {n : Nat} (h : s.Handled n) (hwatcher : s'.watcher = s.watcher)
    (hheadSeq : s'.headSeq = s.headSeq) (hseen : s'.seen = s.seen)
    (hphase : s'.watch.phase = s.watch.phase) (hcycles : s'.watch.cycles = s.watch.cycles)
    (hkicked : Kicked s.watch → Kicked s'.watch) : s'.Handled n := by
  refine h.keep hwatcher hheadSeq.ge hkicked (fun hcyc hm => .cycling (hphase ▸ hcyc) (hseen ▸ hm))
    fun hcyc hor => ?_
  rcases hor with hfailed | hended
  · refine .failed (hphase ▸ hcyc) ?_
    rw [Watch.lastFailed, hcycles]
    exact hfailed
  · exact .ended (hphase.trans hended)

/-- The end of a cycle leaves nothing unhandled: what it knew of is converged, or it is retried. -/
theorem Handled.finish {n start : Nat} {how : CycleEnd} {r : Option Nat × Nat} (h : s.Handled n)
    (hahead : ∀ m, s.seen = some m → s.headSeq ≤ m) (hphase : s.watch.phase = .cycling start)
    (hr : s.reported (.finish how) = some r) :
    Handled { s with
      seen := r.1
      headSeq := r.2
      watch := { s.watch with
        retry := how = .failed
        phase := if how = .stop then .ended else .top
        cycles := (start, how) :: s.watch.cycles } } n := by
  cases how with
  | stop => exact .ended rfl
  | failed => exact .failed rfl rfl
  | ok =>
    obtain ⟨m, hm, rfl⟩ := Option.map_eq_some_iff.mp hr
    refine h.keep rfl (hahead m hm) (fun hk => hk.keep le_rfl ?_ (List.append_nil _).symm)
      (fun _ hle => .converged (hle m hm)) fun hcyc => ?_
    · rw [lastStart_cycling hphase]
      exact lastStart_finish rfl
    · rw [hphase] at hcyc
      cases hcyc

/-- **A step of the watch loop keeps the invariant.** -/
theorem Inv.watchStep {e : WatchEvent} {r : Option Nat × Nat} {watch : Watch}
    (h : s.Inv pearPath workspace) (hr : s.reported e = some r)
    (hs : s.watch.step pearPath e = some watch) :
    Inv pearPath workspace { s with watch, seen := r.1, headSeq := r.2 } := by
  have hwatch := h.watch.step hs
  cases Watch.move_of_step hs with
  | kick => cases hr
  | fs =>
    cases hr
    refine h.keep rfl (h.tracked.mono fun n _ hn => ?_) hwatch h.starts ?_ rfl rfl
    · exact hn.same rfl rfl rfl rfl rfl fun hk => hk.keep le_rfl rfl rfl
    · rw [List.length_append]
      exact h.sent.trans (Nat.le_add_right _ _)
  | forward =>
    cases hr
    refine h.keep rfl (h.tracked.mono fun n _ hn => ?_) hwatch h.starts ?_ rfl rfl
    · -- The kick that is passed on is the last trigger.
      exact hn.same rfl rfl rfl rfl rfl fun _ =>
        .inr ⟨s.watch.sent.length, h.sent, List.getElem?_concat_length⟩
    · rw [List.length_append]
      exact h.sent.trans (Nat.le_add_right _ _)
  | begin =>
    cases hr
    exact {
      tracked := h.tracked.mono fun n _ _ => .cycling rfl fun m hm => by cases hm
      watch := hwatch
      starts := fun c hc => (h.starts c hc).trans h.sent
      sent := le_rfl
      seen := fun n hn => by cases hn
      headSeq := h.headSeq
      ahead := fun n hn => by cases hn }
  | @finish how start hphase =>
    have hlast := lastStart_cycling hphase
    have hnext : Watch.lastStart { s.watch with
        retry := how = .failed
        phase := if how = .stop then .ended else .top
        cycles := (start, how) :: s.watch.cycles } = start := by
      refine lastStart_finish ?_
      split <;> rfl
    have hknown : ∀ n, r.1 = some n → s.seen = some n ∧ r.2 ≤ n := by
      intro n hn
      cases how with
      | ok =>
        obtain ⟨m, hm, rfl⟩ := Option.map_eq_some_iff.mp hr
        cases hn
        exact ⟨hm, le_rfl⟩
      | failed | stop =>
        cases hr
        exact ⟨hn, h.ahead n hn⟩
    have hshown : r.2 ≤ s.link.relay.head := by
      cases how with
      | ok =>
        obtain ⟨m, hm, rfl⟩ := Option.map_eq_some_iff.mp hr
        exact h.seen m hm
      | failed | stop =>
        cases hr
        exact h.headSeq
    exact {
      tracked := h.tracked.mono fun n _ hn => hn.finish h.ahead hphase hr
      watch := hwatch
      starts := fun c hc => by
        rw [hnext]
        rcases List.mem_cons.mp hc with rfl | hc
        · exact le_rfl
        · exact (h.starts c hc).trans hlast.le
      sent := by
        rw [hnext]
        exact hlast.ge.trans h.sent
      seen := fun n hn => h.seen n (hknown n hn).1
      headSeq := hshown
      ahead := fun n hn => (hknown n hn).2 }
  | @idle e taken phase he hbefore hended hafter =>
    have hsame : r = (s.seen, s.headSeq) := by
      unfold reported at hr
      split at hr
      · cases hr
      · cases he
      · cases he
      · exact (Option.some.inj hr).symm
    subst hsame
    have hnext : Watch.lastStart { s.watch with taken, phase } = s.watch.lastStart :=
      (lastStart_rest hafter).trans (lastStart_rest hbefore).symm
    refine h.keep rfl (h.tracked.mono fun n _ hn => ?_) hwatch (fun c hc => ?_) ?_ rfl rfl
    · refine hn.keep rfl le_rfl (fun hk => hk.keep le_rfl hnext (List.append_nil _).symm)
        (fun hcyc => ?_) fun _ hor => ?_
      · rw [hbefore] at hcyc
        cases hcyc
      · rcases hor with hfailed | hend
        · exact .failed hafter hfailed
        · exact absurd hend hended
    · rw [hnext]
      exact h.starts c hc
    · rw [hnext]
      exact h.sent

/-- **One step keeps the invariant.** -/
theorem Inv.step (h : s.Inv pearPath workspace) (hl : s.Lossless e)
    (hs : s.step pearPath workspace e = some s') : s'.Inv pearPath workspace := by
  cases e with
  | link e =>
    obtain ⟨link, hlink, rfl⟩ := Option.map_eq_some_iff.mp hs
    have hhead := FeedLink.head_mono hlink
    have ht := h.tracked.step hl hlink
    exact {
      tracked := ht.mono fun n _ hn => hn.same rfl rfl rfl rfl rfl id
      watch := h.watch
      starts := h.starts
      sent := h.sent
      seen := fun n hn => (h.seen n hn).trans hhead
      headSeq := h.headSeq.trans hhead
      ahead := h.ahead }
  | watch e =>
    obtain ⟨r, hr, hwatch⟩ := Option.bind_eq_some_iff.mp hs
    obtain ⟨watch, hstep, rfl⟩ := Option.map_eq_some_iff.mp hwatch
    exact h.watchStep hr hstep
  | look =>
    by_cases hcyc : s.watch.phase.isCycling = true
    · obtain rfl := Option.some.inj ((if_pos hcyc).symm.trans hs)
      exact {
        tracked := h.tracked.mono fun n hn _ => .cycling hcyc fun m hm => by
          cases hm
          exact hn
        watch := h.watch
        starts := h.starts
        sent := h.sent
        seen := fun n hn => by
          cases hn
          exact le_rfl
        headSeq := h.headSeq
        ahead := fun n hn => by
          cases hn
          exact h.headSeq }
    · cases (if_neg hcyc).symm.trans hs
  | publish seq =>
    by_cases hcond : s.watch.phase.isCycling ∧ (∀ n ∈ s.seen, n < seq) ∧ s.seen.isSome ∧
        seq ≤ s.link.relay.head
    · obtain rfl := Option.some.inj ((if_pos hcond).symm.trans hs)
      obtain ⟨hcyc, hlt, hsome, hle⟩ := hcond
      obtain ⟨m, hm⟩ := Option.isSome_iff_exists.mp hsome
      refine {
        tracked := h.tracked.mono fun n _ hn => hn.keep rfl le_rfl id (fun _ hseen => ?_) ?_
        watch := h.watch
        starts := h.starts
        sent := h.sent
        seen := fun n hn => by
          cases hn
          exact hle
        headSeq := h.headSeq
        ahead := fun n hn => by
          cases hn
          exact (h.ahead m hm).trans (hlt m hm).le }
      · refine .cycling hcyc fun k hk => ?_
        cases hk
        exact (hseen m hm).trans (hlt m hm).le
      · intro hnot
        rw [hcyc] at hnot
        cases hnot
    · cases (if_neg hcond).symm.trans hs
  | check stopped =>
    by_cases htop : s.watcher = .top
    · obtain rfl := Option.some.inj ((if_pos htop).symm.trans hs)
      split
      · exact h.endWatcher
      · exact h.companion fun n hn => hn.rest (.inl htop)
    · cases (if_neg htop).symm.trans hs
  | hint =>
    unfold ConvergeLoop.step at hs
    dsimp only at hs
    split at hs
    · rename_i seq rx hwaiting hrx
      cases hs
      refine h.keep rfl (FeedLink.Tracked.take ?_ fun n hn => ?_) h.watch h.starts h.sent rfl rfl
      · exact h.tracked.mono fun n _ hn => hn.rest (.inr hwaiting)
      · rw [hrx] at hn
        rcases List.mem_cons.mp hn with rfl | hn
        · exact .inr (.got rfl)
        · exact .inl hn
    · cases hs
  | decide =>
    unfold ConvergeLoop.step at hs
    dsimp only at hs
    split at hs
    · rename_i seq hgot
      cases hs
      refine h.companion fun n hn => ?_
      split
      · rename_i hle
        cases hn with
        | got h =>
          rw [hgot] at h
          cases h
          exact .converged hle
        | kicking h => rcases h with h | h <;> cases hgot.symm.trans h
        | converged h => exact .converged h
        | kicked h => exact .kicked h
        | cycling hphase h => exact .cycling hphase h
        | failed hphase h => exact .failed hphase h
        | ended h => exact .ended h
      · exact .kicking (.inl rfl)
    · cases hs
  | timeout =>
    by_cases hwaiting : s.watcher = .waiting ∧ s.link.feed.rx = []
    · obtain rfl := Option.some.inj ((if_pos hwaiting).symm.trans hs)
      exact h.companion fun n _ => .kicking (.inl rfl)
    · cases (if_neg hwaiting).symm.trans hs
  | kick =>
    by_cases hkicking : s.watcher = .kicking
    · have hs := (if_pos hkicking).symm.trans hs
      split at hs
      · rename_i watch hstep
        obtain rfl := Option.some.inj hs
        have hwatch := h.watch.step hstep
        obtain rfl := Watch.step_kick hstep
        exact h.keep rfl (h.tracked.mono fun n _ _ => .kicked (.inl (Nat.succ_pos _))) hwatch h.starts
          h.sent rfl rfl
      · obtain rfl := Option.some.inj hs
        exact h.endWatcher
    · cases (if_neg hkicking).symm.trans hs

/-- When both threads are blocked, what is handled is converged. -/
theorem Inv.converged_of_idle {n : Nat} (h : s.Inv pearPath workspace) (hn : s.Handled n)
    (hwatcher : s.watcher = .waiting) (hphase : s.watch.phase = .waiting false)
    (htaken : s.watch.taken = s.watch.sent.length) (hkicks : s.watch.kicks = 0) : n ≤ s.headSeq := by
  have hinv := h.watch.phase
  rw [hphase] at hinv
  obtain ⟨hretry, hlast, hcovered⟩ := hinv
  cases hn with
  | converged h => exact h
  | got h => cases hwatcher.symm.trans h
  | kicking h => rcases h with h | h <;> cases hwatcher.symm.trans h
  | kicked hk =>
    rcases hk with hk | ⟨i, hi, hget⟩
    · rw [hkicks] at hk
      cases hk
    · -- A kick that was taken was sent before a cycle started that succeeded.
      obtain ⟨c, hc, -, hlt⟩ := hcovered hretry.symm i .external
        (htaken ▸ (List.getElem?_eq_some_iff.mp hget).1) hget rfl
      exact absurd (hlt.trans_le ((h.starts c hc).trans hi)) (lt_irrefl _)
  | cycling hcyc =>
    rw [hphase] at hcyc
    cases hcyc
  | failed _ hfailed =>
    rw [← hlast, ← hretry] at hfailed
    cases hfailed
  | ended h => cases hphase.symm.trans h

end ConvergeLoop

/-- **A converge loop follows the head.** In every interleaving of any number of commits and subscriptions
with a device's listener, its reconnects, its companion thread and its watch loop, in which no hint is
lost at the relay: whenever both threads are blocked and nothing is queued between them, the device has
converged the head, unless the head's hint is on its way to it: a hint that was dropped as an echo was
one. And the device never shows a number beyond the head. -/
theorem converge_follows_head {pearPath : List Text} {workspace : Text} {head : Nat}
    {es : List ConvergeLoopEvent} {s : ConvergeLoop}
    (run : Lib.Run (ConvergeLoop.step pearPath workspace) ConvergeLoop.Lossless (.boot head) es s) :
    (s.watcher = .waiting → s.watch.phase = .waiting false → s.watch.taken = s.watch.sent.length →
      s.watch.kicks = 0 → s.link.Served →
        s.headSeq = s.link.relay.head ∨ s.link.Coming workspace) ∧
    s.headSeq ≤ s.link.relay.head := by
  have hinv := run.invariant (I := ConvergeLoop.Inv pearPath workspace)
    (fun _ _ _ h hl hs => h.step hl hs) (ConvergeLoop.inv_boot pearPath workspace head)
  refine ⟨fun hwatcher hphase htaken hkicks hserved => ?_, hinv.headSeq⟩
  refine (hinv.tracked.coming hserved).imp_left fun hhandled => ?_
  exact Nat.le_antisymm hinv.headSeq
    (hinv.converged_of_idle hhandled hwatcher hphase htaken hkicks)

/-- No future is dropped after its commit, and no section without a handler commits. -/
def ConvergeLoop.lossless (s : ConvergeLoop) : ConvergeLoopEvent → Bool
  | .link (.relay e) => s.link.relay.lossless e
  | _ => true

theorem ConvergeLoop.lossless_of_check (s : ConvergeLoop) (e : ConvergeLoopEvent)
    (h : s.lossless e = true) : s.Lossless e := by
  cases e with
  | link e =>
    cases e with
    | relay e => exact Relay.Feed.lossless_of_check s.link.relay e h
    | noise | dial | upgraded | die | read | quiet | redial => trivial
  | watch | look | publish | check | hint | decide | timeout | kick => trivial

/-- A device publishes its tree, and drops the echo; another device commits, and the hint of that starts a
cycle. -/
def echoedPush : List ConvergeLoopEvent :=
  [.link (.dial 0), .link (.relay (.readHead 0 true)), .link .upgraded, .link (.relay (.greet 0)),
    .link .read, .check false, .hint, .decide, .check false,
    .watch .begin, .look, .link (.relay (.request 0)), .link (.relay (.commit 0)), .publish 1,
    .link (.relay (.notify 0)), .link (.relay (.recv 0)), .link .read, .watch (.finish .ok),
    .watch (.look true), .hint, .decide, .check false,
    .link (.relay (.request 1)), .link (.relay (.commit 1)), .link (.relay (.notify 1)),
    .link (.relay (.recv 0)), .link .read, .hint, .decide, .kick, .watch .forward, .watch .receive,
    .watch .drain, .watch .begin, .look, .watch (.finish .ok), .watch (.look true), .check false]

/-- The device has converged both heads, with one cycle for each. -/
theorem converge_follows_head_echoed : ∃ s : ConvergeLoop,
    Lib.Run (ConvergeLoop.step [['w'], pearDir] ['w']) ConvergeLoop.Lossless (.boot 0) echoedPush s ∧
      (s.headSeq = s.link.relay.head ∨ s.link.Coming ['w']) ∧ s.watch.cycles.length = 2 := by
  have hrun : (Lib.replay (fun s e => if ConvergeLoop.lossless s e then
        s.step [['w'], pearDir] ['w'] e else none) (.boot 0) echoedPush).map (fun s =>
      (s.watcher, s.watch.phase, s.link.attached, s.link.relay.subs[0]?.map (·.sent))) =
      some (.waiting, .waiting false, some 0, some [0, 1, 2]) := by
    decide +kernel
  have hwatch : (Lib.replay (fun s e => if ConvergeLoop.lossless s e then
        s.step [['w'], pearDir] ['w'] e else none) (.boot 0) echoedPush).map (fun s =>
      (s.watch.taken, s.watch.sent.length, s.watch.kicks, s.watch.cycles.length)) =
      some (1, 1, 0, 2) := by
    decide +kernel
  obtain ⟨s, hs, hfacts⟩ := Option.map_eq_some_iff.mp hrun
  rw [hs] at hwatch
  obtain ⟨hwatcher, hphase, hattached, hsub⟩ : _ ∧ _ ∧ _ ∧ _ := by
    simpa only [Prod.mk.injEq] using hfacts
  obtain ⟨htaken, hsent, hkicks, hcycles⟩ : _ ∧ _ ∧ _ ∧ _ := by
    simpa only [Prod.mk.injEq] using Option.some.inj hwatch
  obtain ⟨sub, hsub, -⟩ := Option.map_eq_some_iff.mp hsub
  have run := Lib.Run.of_replay_if ConvergeLoop.lossless_of_check hs
  exact ⟨s, run, (converge_follows_head run).1 hwatcher hphase (htaken.trans hsent.symm) hkicks
    ⟨0, sub, hattached, hsub⟩, hcycles⟩

end Pear
