import Pear.Manifest
import Pear.Lib.Runs

/-!
# The watch loop

`watch_loop_with_kicks` (`watch.rs`) runs a cycle whenever something triggers it. Filesystem events and
the caller's kicks arrive in one channel; the loop takes them at four places (the wait for the first
one, the debounce window, the drain before a cycle, and the timed wait after a failed cycle), and
anybody may send at any moment between two steps. The state keeps everything ever sent and how much
of it was taken, and the cycles that ended. Whenever the loop is blocked without a timeout, every
trigger that wants a cycle was sent before the start of one that succeeded
(`watch_loses_no_trigger`).
-/

namespace Pear

open Lib (Run)

/-- What wakes the loop (`Trigger`). A filesystem event has the paths it is about, or it is an error of
the watcher. -/
inductive Trigger where
  | fs (event : Except Text (List (List Text)))
  | external
deriving DecidableEq

/-- Every path of an event is at or below `.pear` (`is_pear_only`). An event without paths says that
changes may have been missed. -/
def isPearOnly (pearPath : List Text) : Except Text (List (List Text)) → Bool
  | .ok paths => paths ≠ [] && paths.all pearPath.isPrefixOf
  | .error _ => false

/-- A trigger asks for a cycle. -/
def Trigger.wanted (pearPath : List Text) : Trigger → Bool
  | .fs event => !isPearOnly pearPath event
  | .external => true

/-- How a cycle ends: with a report, with an error that is retried, or with one that ends the loop
(`StopWatching`). -/
inductive CycleEnd where
  | ok
  | failed
  | stop
deriving DecidableEq

/-- Where the loop is. -/
inductive WatchPhase where
  /-- About to call the cycle. -/
  | ready
  /-- In the cycle, which started when this many triggers had been sent. -/
  | cycling (start : Nat)
  /-- At the head of the loop. -/
  | top
  /-- In the wait for the first trigger: with the retry timeout, or untimed. -/
  | waiting (timed : Bool)
  /-- In the debounce window, after this much of it wanted a cycle. -/
  | window (wanted : Bool)
  /-- Taking what is queued. -/
  | draining
  /-- The loop returned. -/
  | ended
deriving DecidableEq

/-- The loop, its channel, and the cycles that ended, the last one first, with what had been sent when
they started. -/
structure Watch where
  /-- What the caller sent on `kicks` and the forwarding thread has not passed on. -/
  kicks : Nat := 0
  /-- Everything sent into the trigger channel, in order. -/
  sent : List Trigger := []
  /-- How much of it the loop has received. -/
  taken : Nat := 0
  retry : Bool := false
  phase : WatchPhase := .ready
  cycles : List (Nat × CycleEnd) := []
deriving DecidableEq

/-- What happens next. -/
inductive WatchEvent where
  /-- The watcher sends an event. -/
  | fs (event : Except Text (List (List Text)))
  /-- The caller kicks. -/
  | kick
  /-- The thread passes a kick on. -/
  | forward
  | begin
  | finish (how : CycleEnd)
  /-- The source is looked at. -/
  | look (isDir : Bool)
  /-- The wait for the first trigger gets one. -/
  | receive
  /-- The window gets one, and has reached `MAX_COALESCE` or not. -/
  | coalesce (late : Bool)
  /-- A timed receive times out. -/
  | timeout
  /-- `try_recv` -/
  | drain
  /-- The channel is closed. -/
  | disconnect

/-- After the window: a cycle, when something in it wanted one. -/
def WatchPhase.afterWindow (wanted : Bool) : WatchPhase := if wanted then .draining else .top

/-- One step of the loop, of a sender, or of the clock. -/
def Watch.step (pearPath : List Text) (s : Watch) (e : WatchEvent) : Option Watch :=
  match s.phase, e with
  | .ended, _ => none
  | _, .fs event => some { s with sent := s.sent ++ [.fs event] }
  | _, .kick => some { s with kicks := s.kicks + 1 }
  | _, .forward =>
    if s.kicks = 0 then none
    else some { s with kicks := s.kicks - 1, sent := s.sent ++ [.external] }
  | .ready, .begin => some { s with phase := .cycling s.sent.length }
  | .cycling start, .finish how =>
    some { s with
      retry := how = .failed
      phase := if how = .stop then .ended else .top
      cycles := (start, how) :: s.cycles }
  | .top, .look isDir => some { s with phase := if isDir then .waiting s.retry else .ended }
  | .waiting _, .receive =>
    match s.sent[s.taken]? with
    | some (.fs event) =>
      some { s with taken := s.taken + 1, phase := .window (!isPearOnly pearPath event) }
    | some .external => some { s with taken := s.taken + 1, phase := .draining }
    | none => none
  | .waiting true, .timeout =>
    if s.taken = s.sent.length then some { s with phase := .draining } else none
  | .window wanted, .coalesce late =>
    match s.sent[s.taken]? with
    | some t =>
      let wanted := wanted || t.wanted pearPath
      some { s with
        taken := s.taken + 1
        phase := if late then .afterWindow wanted else .window wanted }
    | none => none
  | .window wanted, .timeout =>
    if s.taken = s.sent.length then some { s with phase := .afterWindow wanted } else none
  | .draining, .drain =>
    if s.taken < s.sent.length then some { s with taken := s.taken + 1 }
    else some { s with phase := .ready }
  | .waiting _, .disconnect | .window _, .disconnect =>
    if s.taken = s.sent.length then some { s with phase := .ended } else none
  | _, _ => none

/-- The loop before its initial cycle. -/
def Watch.initial : Watch := {}

namespace Watch

/-! ## What the loop keeps -/

/-- A trigger was sent before the start of a cycle that succeeded. -/
def Covered (s : Watch) (i : Nat) : Prop := ∃ c ∈ s.cycles, c.2 = .ok ∧ i < c.1

/-- Everything taken that wants a cycle is covered. -/
def AllCovered (pearPath : List Text) (s : Watch) : Prop :=
  ∀ i t, i < s.taken → s.sent[i]? = some t → t.wanted pearPath = true → s.Covered i

/-- The last cycle that ended failed. -/
def lastFailed (s : Watch) : Bool := s.cycles.head?.map (·.2) = some .failed

/-- What holds in each phase. After a success nothing taken waits for a cycle, but for what the loop
is on the way to run one for. -/
def PhaseInv (pearPath : List Text) (s : Watch) : WatchPhase → Prop
  | .cycling start => s.taken ≤ start ∧ start ≤ s.sent.length
  | .top => s.retry = s.lastFailed ∧ (s.retry = false → s.AllCovered pearPath)
  | .waiting timed =>
    timed = s.retry ∧ s.retry = s.lastFailed ∧ (s.retry = false → s.AllCovered pearPath)
  | .window wanted =>
    s.retry = s.lastFailed ∧ (s.retry = false → wanted = false → s.AllCovered pearPath)
  | .ready | .draining | .ended => True

/-- The loop's invariant. -/
structure Inv (pearPath : List Text) (s : Watch) : Prop where
  taken : s.taken ≤ s.sent.length
  phase : s.PhaseInv pearPath s.phase

section
variable {pearPath : List Text} {s s' : Watch} {e : WatchEvent}

/-- Something more is sent. -/
theorem AllCovered.send (h : s.AllCovered pearPath) (htaken : s.taken ≤ s.sent.length)
    (t : Trigger) (kicks : Nat) :
    AllCovered pearPath { s with kicks := kicks, sent := s.sent ++ [t] } := by
  intro i u hi hu hw
  have hold : s.sent[i]? = some u := by
    rw [← hu]
    exact (List.getElem?_append_left (Nat.lt_of_lt_of_le hi htaken)).symm
  exact h i u hi hold hw

/-- Sending keeps the invariant. -/
theorem Inv.send (h : s.Inv pearPath) (t : Trigger) (kicks : Nat) :
    Inv pearPath { s with kicks := kicks, sent := s.sent ++ [t] } := by
  have hlen : (s.sent ++ [t]).length = s.sent.length + 1 := by simp
  obtain ⟨htaken, hphase⟩ := h
  refine ⟨by show s.taken ≤ (s.sent ++ [t]).length; omega, ?_⟩
  show PhaseInv pearPath _ s.phase
  cases hp : s.phase with
  | ready | draining | ended => trivial
  | cycling start =>
    rw [hp] at hphase
    exact ⟨hphase.1, by show start ≤ (s.sent ++ [t]).length; have := hphase.2; omega⟩
  | top =>
    rw [hp] at hphase
    exact ⟨hphase.1, fun hr => (hphase.2 hr).send htaken t kicks⟩
  | waiting timed =>
    rw [hp] at hphase
    exact ⟨hphase.1, hphase.2.1, fun hr => (hphase.2.2 hr).send htaken t kicks⟩
  | window wanted =>
    rw [hp] at hphase
    exact ⟨hphase.1, fun hr hw => (hphase.2 hr hw).send htaken t kicks⟩

/-- A trigger that wants nothing is taken. -/
theorem AllCovered.take (h : s.AllCovered pearPath) {t : Trigger} (ht : s.sent[s.taken]? = some t)
    (hw : t.wanted pearPath = false) {phase : WatchPhase} :
    AllCovered pearPath { s with taken := s.taken + 1, phase := phase } := by
  intro i u hi hu huw
  have hi : i < s.taken + 1 := hi
  rcases Nat.lt_succ_iff_lt_or_eq.mp hi with hi | rfl
  · exact h i u hi hu huw
  · have hu : s.sent[s.taken]? = some u := hu
    rw [ht] at hu
    cases hu
    rw [hw] at huw
    cases huw

/-- The end of the debounce window keeps the invariant. -/
theorem Inv.afterWindow {wanted : Bool} (htaken : s.taken ≤ s.sent.length)
    (hretry : s.retry = s.lastFailed)
    (hcov : s.retry = false → wanted = false → s.AllCovered pearPath) :
    Inv pearPath { s with phase := .afterWindow wanted } := by
  refine ⟨htaken, ?_⟩
  cases wanted with
  | true => trivial
  | false => exact ⟨hretry, fun hr => hcov hr rfl⟩

/-- **One step keeps the invariant.** -/
theorem Inv.step (h : s.Inv pearPath) (hs : s.step pearPath e = some s') : s'.Inv pearPath := by
  have hinv := h
  obtain ⟨htaken, hphase⟩ := h
  unfold Watch.step at hs
  split at hs
  · cases hs
  · -- A watcher event.
    cases hs
    exact hinv.send _ s.kicks
  · -- A kick.
    cases hs
    exact ⟨htaken, hphase⟩
  · -- A kick is passed on.
    split at hs
    · cases hs
    · cases hs
      exact hinv.send _ _
  · -- A cycle starts, with everything taken before.
    cases hs
    exact ⟨htaken, htaken, le_rfl⟩
  · -- It ends.
    rename_i start how hp
    cases hs
    rw [hp] at hphase
    refine ⟨htaken, ?_⟩
    cases how with
    | stop => trivial
    | failed => exact ⟨rfl, fun hr => nomatch hr⟩
    | ok =>
      exact ⟨rfl, fun _ i t hi _ _ => ⟨_, .head _, rfl, Nat.lt_of_lt_of_le hi hphase.1⟩⟩
  · -- The head of the loop.
    rename_i isDir hp
    cases hs
    rw [hp] at hphase
    refine ⟨htaken, ?_⟩
    cases isDir with
    | true => exact ⟨rfl, hphase⟩
    | false => trivial
  · -- The first trigger.
    rename_i timed hp
    rw [hp] at hphase
    split at hs
    · rename_i event ht
      cases hs
      refine ⟨(List.getElem?_eq_some_iff.mp ht).1, hphase.2.1, fun hr hw => ?_⟩
      exact (hphase.2.2 hr).take ht hw
    · rename_i ht
      cases hs
      exact ⟨(List.getElem?_eq_some_iff.mp ht).1, trivial⟩
    · cases hs
  · split at hs
    · cases hs
      exact ⟨htaken, trivial⟩
    · cases hs
  · -- Another trigger in the window.
    rename_i wanted late hp
    rw [hp] at hphase
    split at hs
    · rename_i t ht
      have htaken' : s.taken + 1 ≤ s.sent.length := (List.getElem?_eq_some_iff.mp ht).1
      have hcov : s.retry = false → (wanted || t.wanted pearPath) = false → ∀ phase,
          AllCovered pearPath { s with taken := s.taken + 1, phase := phase } := by
        intro hr hw phase
        obtain ⟨hw, ht'⟩ := Bool.or_eq_false_iff.mp hw
        exact (hphase.2 hr hw).take ht ht'
      cases hs
      cases late with
      | true =>
        let s₁ : Watch := { s with taken := s.taken + 1 }
        exact @Inv.afterWindow pearPath s₁ _ htaken' hphase.1 fun hr hw => hcov hr hw _
      | false => exact ⟨htaken', hphase.1, fun hr hw => hcov hr hw _⟩
    · cases hs
  · -- The window times out.
    rename_i wanted hp
    rw [hp] at hphase
    split at hs
    · cases hs
      exact Inv.afterWindow htaken hphase.1 hphase.2
    · cases hs
  · -- The queue is drained.
    split at hs
    · rename_i hlt
      cases hs
      rename_i hp
      refine ⟨hlt, ?_⟩
      show PhaseInv pearPath _ s.phase
      rw [hp]
      trivial
    · cases hs
      exact ⟨htaken, trivial⟩
  · split at hs
    · cases hs
      exact ⟨htaken, trivial⟩
    · cases hs
  · split at hs
    · cases hs
      exact ⟨htaken, trivial⟩
    · cases hs
  · cases hs

end

end Watch

/-! ## Runs -/

section
variable {pearPath : List Text} {s : Watch} {es : List WatchEvent}

/-- Every run keeps the invariant. -/
theorem Watch.Inv.of_run (run : Run (Watch.step pearPath) (fun _ _ => True) .initial es s) :
    s.Inv pearPath :=
  run.invariant (fun _ _ _ h _ hs => h.step hs) ⟨le_rfl, trivial⟩

/-- **The watch loop loses no trigger.** Whenever it is blocked in the untimed wait, every trigger sent so
far that is not an event of `.pear` alone was sent before the start of a cycle that succeeded; and a
wait is timed exactly when the last cycle that ended failed. -/
theorem watch_loses_no_trigger
    (run : Run (Watch.step pearPath) (fun _ _ => True) .initial es s) :
    (s.phase = .waiting false → s.taken = s.sent.length →
      ∀ i t, s.sent[i]? = some t → t.wanted pearPath = true →
        ∃ c ∈ s.cycles, c.2 = .ok ∧ i < c.1) ∧
    ∀ timed, s.phase = .waiting timed →
      (timed = true ↔ s.cycles.head?.map (·.2) = some .failed) := by
  have hinv := Watch.Inv.of_run run
  constructor
  · intro hp hblocked i t ht hw
    have hphase := hinv.phase
    rw [hp] at hphase
    refine hphase.2.2 hphase.1.symm i t ?_ ht hw
    rw [hblocked]
    exact (List.getElem?_eq_some_iff.mp ht).1
  · intro timed hp
    have hphase := hinv.phase
    rw [hp] at hphase
    rw [hphase.1, hphase.2.1, Watch.lastFailed, decide_eq_true_eq]

end

/-- An edit, a cycle that fails on it, the retry, and the blocked wait. -/
def retriedEdit : List WatchEvent :=
  [.begin, .fs (.ok [["w".toList, "a".toList]]), .finish .ok, .look true, .receive, .timeout, .drain,
    .begin, .finish .failed, .look true, .timeout, .drain, .begin, .finish .ok, .look true]

/-- What it leaves. -/
def afterRetry : Watch where
  sent := [.fs (.ok [["w".toList, "a".toList]])]
  taken := 1
  phase := .waiting false
  cycles := [(1, .ok), (1, .failed), (0, .ok)]

/-- The edit came before the start of a cycle that succeeded. -/
theorem watch_loses_no_trigger_retried :
    ∃ c ∈ afterRetry.cycles, c.2 = .ok ∧ 0 < c.1 := by
  have hrun : Run (Watch.step ["w".toList, pearDir]) (fun _ _ => True) .initial retriedEdit
      afterRetry := .of_replay (fun _ _ _ => trivial) (by decide)
  exact (watch_loses_no_trigger hrun).1 rfl rfl 0 _ rfl (by decide)

end Pear
