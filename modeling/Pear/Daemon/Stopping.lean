import Pear.Daemon.Loops

/-!
# Stopping the daemon's loops

A loop that was asked to stop, or that has failed, begins at most one more cycle, and none unless it was
already past its check (`loop_stops`). A shutdown asks every registered loop to stop and waits until no
cycle is in flight. It can come to that before its deadline just when no registered loop is wedged
(`shutdown_drains_iff`): a thread that parks after a fatal error still holds the guard of its cycle.
-/

namespace Pear

section
variable {debug : Text → Text} {h h' : PeardHost} {line : Except Text Json} {os : OsAnswers}
  {how : SaveEnd} {delivered : Bool} {home : DaemonHome}

/-! ## Stopping -/

/-- The event begins a cycle of a loop. -/
def HostEvent.begins (i : Nat) : HostEvent → Bool
  | .tick j .enter => j = i
  | _ => false

/-- The cycles that a loop begins when it is done: one, when it is past its check. -/
def Loop.pending (l : Loop) : Nat := if l.thread.map (·.phase) = some .checked then 1 else 0

theorem Loop.pending_congr {l l' : Loop} (h : l'.thread = l.thread) : l'.pending = l.pending := by
  rw [Loop.pending, Loop.pending, h]

/-- Asking loops to stop leaves the threads, and done what is done. -/
theorem Peard.getElem?_foldl_stopLoop {i : Nat} : ∀ (is : List Nat) {loops : List Loop} {l : Loop},
    loops[i]? = some l → ∃ l', (is.foldl stopLoop loops)[i]? = some l' ∧ l'.thread = l.thread ∧
      (l.control.done = true → l'.control.done = true)
  | [], _, l, hl => ⟨l, hl, rfl, id⟩
  | j :: is, loops, l, hl => by
    have hone : ∃ l₁, (stopLoop loops j)[i]? = some l₁ ∧ l₁.thread = l.thread ∧
        (l.control.done = true → l₁.control.done = true) := by
      rw [stopLoop, List.getElem?_modify, hl]
      by_cases hji : j = i
      · exact ⟨_, rfl, by simp [hji], by simp [hji, LoopControl.done]⟩
      · exact ⟨_, rfl, by simp [hji], by simp [hji]⟩
    obtain ⟨l₁, hl₁, hth₁, hdone₁⟩ := hone
    obtain ⟨l₂, hl₂, hth₂, hdone₂⟩ := Peard.getElem?_foldl_stopLoop is hl₁
    exact ⟨l₂, hl₂, hth₂.trans hth₁, fun hd => hdone₂ (hdone₁ hd)⟩

variable (debug line os how delivered home) in
/-- A connection leaves the threads of the loops there are, and done what is done. -/
theorem Peard.serve_loops {s : Peard} {i : Nat} {l : Loop} (hl : s.loops[i]? = some l) :
    ∃ l', (s.serve debug line os how delivered home).2.1.loops[i]? = some l' ∧
      l'.thread = l.thread ∧ (l.control.done = true → l'.control.done = true) := by
  obtain heq | heq | ⟨reg, token, -, heq⟩ | ⟨k, w, -, heq⟩ :=
    Peard.serve_cases debug s line os how delivered home _ rfl
  · rw [heq]
    exact ⟨l, hl, rfl, id⟩
  · rw [heq]
    exact Peard.getElem?_foldl_stopLoop _ hl
  · rw [heq]
    refine ⟨l, ?_, rfl, id⟩
    unfold Peard.insert
    rw [List.getElem?_append_left (List.getElem?_eq_some_iff.mp hl).1]
    exact hl
  · rw [heq]
    exact Peard.getElem?_foldl_stopLoop [w.loop] hl

/-- **A step of a loop that is done** is no check that lets it pass. -/
theorem Loop.Move.pending_le {l l' : Loop} {th : LoopThread} {t : LoopTick}
    (hm : Loop.Move l.control th t l') (hth : l.thread = some th) (hok : l.Ok)
    (hdone : l.control.done = true) :
    l'.control.done = true ∧ (if t = .enter then 1 else 0) + l'.pending ≤ l.pending := by
  have hrecord : ∀ message, (l.control.recordError message).done = true := by
    intro message
    cases herr : l.control.error <;> simp [LoopControl.recordError, LoopControl.done, herr]
  cases hm with
  | rest hphase hp =>
    refine ⟨hdone, ?_⟩
    obtain rfl | rfl := hp <;> simp [Loop.pending]
  | pass hphase hstop =>
    -- What is done and not stopped has an error, so its thread is not between two cycles.
    have herr : l.control.error.isSome = true := by simpa [LoopControl.done, hstop] using hdone
    have hend := hok.failed herr th hth
    rw [hphase] at hend
    exact hend.elim (fun h => by cases h) (fun h => by cases h)
  | enter hphase =>
    refine ⟨hdone, ?_⟩
    simp [Loop.pending, hth, hphase]
  | leave ht hphase seq m =>
    refine ⟨hdone, ?_⟩
    simp [Loop.pending, ht]
  | fatal hphase message =>
    refine ⟨hrecord message, ?_⟩
    simp [Loop.pending]
  | wedge hphase message =>
    refine ⟨hrecord message, ?_⟩
    simp [Loop.pending]
  | fail hphase message =>
    refine ⟨hrecord message, ?_⟩
    simp [Loop.pending]

/-- Without a process there are no cycles. -/
theorem PeardHost.begins_of_down {i : Nat} : ∀ {es : List HostEvent} {h h' : PeardHost},
    h.peard = none → Lib.replay (PeardHost.step debug) h es = some h' →
      (∀ t, HostEvent.start t ∉ es) → es.countP (HostEvent.begins i) = 0
  | [], _, _, _, _, _ => rfl
  | e :: es, h, h', hdown, hrun, hstart => by
    obtain ⟨h₁, hstep, -⟩ := Option.bind_eq_some_iff.mp hrun
    unfold PeardHost.step at hstep
    rw [hdown] at hstep
    cases e with
    | start t => exact absurd List.mem_cons_self (hstart t)
    | _ => cases hstep

/-- The cycles that a loop begins once it is done. -/
theorem PeardHost.begins_le {i : Nat} : ∀ {es : List HostEvent} {h h' : PeardHost} {s : Peard}
    {l : Loop}, h.Looped → h.peard = some s → s.loops[i]? = some l → l.control.done = true →
      Lib.replay (PeardHost.step debug) h es = some h' → (∀ t, HostEvent.start t ∉ es) →
        es.countP (HostEvent.begins i) ≤ l.pending
  | [], _, _, _, _, _, _, _, _, _, _ => Nat.zero_le _
  | e :: es, h, h', s, l, hh, hs, hl, hdone, hrun, hstart => by
    obtain ⟨h₁, hstep, hrest⟩ := Option.bind_eq_some_iff.mp hrun
    have hh₁ := hh.step hstep
    have hstart' : ∀ t, HostEvent.start t ∉ es := fun t ht => hstart t (List.mem_cons_of_mem _ ht)
    have hlooped := hh s hs
    obtain ⟨peard, home⟩ := h
    obtain rfl : peard = some s := hs
    unfold PeardHost.step at hstep
    rw [List.countP_cons]
    cases e with
    | start t => exact absurd List.mem_cons_self (hstart t)
    | serve line os how delivered =>
      dsimp only at hstep
      split at hstep
      · cases hstep
      obtain rfl := Option.some.inj hstep
      obtain ⟨l', hl', hth, hdone'⟩ := Peard.serve_loops debug line os how delivered home hl
      have ih := PeardHost.begins_le hh₁ rfl hl' (hdone' hdone) hrest hstart'
      rw [Loop.pending_congr hth] at ih
      simpa [HostEvent.begins] using ih
    | dieServing line os point =>
      dsimp only at hstep
      split at hstep
      · cases hstep
      obtain rfl := Option.some.inj hstep
      rw [PeardHost.begins_of_down rfl hrest hstart']
      exact Nat.zero_le _
    | die =>
      obtain rfl := Option.some.inj hstep
      rw [PeardHost.begins_of_down rfl hrest hstart']
      exact Nat.zero_le _
    | exit deadline =>
      dsimp only at hstep
      split at hstep
      · obtain rfl := Option.some.inj hstep
        rw [PeardHost.begins_of_down rfl hrest hstart']
        exact Nat.zero_le _
      · cases hstep
    | tick j t =>
      dsimp only at hstep
      split at hstep
      · cases hstep
      rename_i l₀ hl₀
      split at hstep
      · cases hstep
      rename_i l₁ hl₁
      obtain rfl := Option.some.inj hstep
      by_cases hij : j = i
      · subst hij
        rw [hl] at hl₀
        obtain rfl := Option.some.inj hl₀
        obtain ⟨th, hth, hmove⟩ := Loop.move_of_step hl₁
        obtain ⟨hdone₁, hle⟩ := hmove.pending_le hth (hlooped.ok _ _ hl) hdone
        have hget : (s.loops.set j l₁)[j]? = some l₁ :=
          List.getElem?_set_self (List.getElem?_eq_some_iff.mp hl).1
        have ih := PeardHost.begins_le hh₁ rfl hget hdone₁ hrest hstart'
        have hbegins : (if HostEvent.begins j (.tick j t) then 1 else 0) =
            if t = .enter then 1 else 0 := by
          cases t <;> simp [HostEvent.begins]
        rw [hbegins]
        omega
      · have hget : (s.loops.set j l₁)[i]? = some l := by
          rw [List.getElem?_set_ne hij]
          exact hl
        have ih := PeardHost.begins_le hh₁ rfl hget hdone hrest hstart'
        have hbegins : HostEvent.begins i (.tick j t) = false := by
          cases t <;> simp [HostEvent.begins, hij]
        simpa [hbegins] using ih

/-- **A loop that is done begins at most one more cycle**, and none unless it is past its check: in any
run of one process, a loop that was asked to stop, by `remove` or by a shutdown, or that has failed. -/
theorem loop_stops {es₀ es : List HostEvent} {h₀ : PeardHost} {s : Peard} {i : Nat} {l : Loop}
    (hdown : h₀.peard = none) (hreach : Lib.replay (PeardHost.step debug) h₀ es₀ = some h)
    (hs : h.peard = some s) (hl : s.loops[i]? = some l) (hdone : l.control.done = true)
    (hrun : Lib.replay (PeardHost.step debug) h es = some h')
    (hstart : ∀ t, HostEvent.start t ∉ es) :
    es.countP (HostEvent.begins i) ≤ l.pending :=
  PeardHost.begins_le (PeardHost.Looped.replay (fun s hs => by rw [hdown] at hs; cases hs) hreach) hs
    hl hdone hrun hstart

/-! ## The shutdown -/

/-- A registered loop that parked in the middle of a cycle. -/
def Peard.Wedged (s : Peard) : Prop :=
  ∃ (k : Text) (w : Worker) (l : Loop) (th : LoopThread), s.workers[k]? = some w ∧
    s.loops[w.loop]? = some l ∧ l.thread = some th ∧ th.phase = .wedged

theorem Peard.drained_iff {s : Peard} : s.drained = true ↔
    ∀ (k : Text) (w : Worker), s.workers[k]? = some w → (s.control w).inCycle = false := by
  simp only [Peard.drained, List.all_eq_true, Bool.not_eq_true']
  constructor
  · exact fun h k w hw => h (k, w) (Std.ExtTreeMap.mem_toList_iff_getElem?_eq_some.mpr hw)
  · exact fun h e he => h e.1 e.2 (Std.ExtTreeMap.mem_toList_iff_getElem?_eq_some.mp he)

theorem Peard.control_eq {s : Peard} {w : Worker} {l : Loop} (hl : s.loops[w.loop]? = some l) :
    s.control w = l.control := by
  rw [Peard.control, hl]
  rfl

/-- A process with a wedged loop is not drained, and no thread's step changes that. -/
theorem Peard.Wedged.not_drained {s : Peard} (hs : s.Looped) (hw : s.Wedged) : s.drained = false := by
  obtain ⟨k, w, l, th, hw, hl, hth, hphase⟩ := hw
  refine Bool.eq_false_iff.mpr fun hd => ?_
  have hin := Peard.drained_iff.mp hd k w hw
  rw [Peard.control_eq hl, Bool.eq_false_iff] at hin
  exact hin ((hs.ok _ _ hl).inCycle.mpr ⟨th, hth, .inr hphase⟩)

theorem Peard.Wedged.tick {s : Peard} {i : Nat} {l l' : Loop} {t : LoopTick}
    (hl : s.loops[i]? = some l) (hstep : l.step t = some l') (hw : s.Wedged) :
    Peard.Wedged { s with loops := s.loops.set i l' } := by
  obtain ⟨k, w, l₀, th, hw, hl₀, hth, hphase⟩ := hw
  refine ⟨k, w, l₀, th, hw, ?_, hth, hphase⟩
  have hne : i ≠ w.loop := by
    rintro rfl
    rw [hl] at hl₀
    obtain rfl := Option.some.inj hl₀
    obtain ⟨th', hth', hmove⟩ := Loop.move_of_step hstep
    rw [hth] at hth'
    obtain rfl := Option.some.inj hth'
    cases hmove <;> simp_all
  rw [List.getElem?_set_ne hne]
  exact hl₀

/-- The steps of loops' threads, as events. -/
def tickEvents (ticks : List (Nat × LoopTick)) : List HostEvent := ticks.map fun x => .tick x.1 x.2

/-- A step of a loop's thread, as a step of the host. -/
theorem PeardHost.step_tick {s : Peard} {i : Nat} {l l' : Loop} {t : LoopTick}
    (hl : s.loops[i]? = some l) (hstep : l.step t = some l') :
    (⟨some s, home⟩ : PeardHost).step debug (.tick i t) =
      some ⟨some { s with loops := s.loops.set i l' }, home⟩ := by
  simp only [PeardHost.step, hl, hstep]

/-- While threads only step, a wedged loop keeps the process from draining. -/
theorem Peard.Wedged.not_exit : ∀ {ticks : List (Nat × LoopTick)} {s : Peard} {home : DaemonHome}
    {h₁ : PeardHost}, s.Looped → s.Wedged →
      Lib.replay (PeardHost.step debug) ⟨some s, home⟩ (tickEvents ticks) = some h₁ →
        h₁.step debug (.exit false) = none
  | [], s, home, h₁, hs, hw, hrun => by
    obtain rfl := Option.some.inj hrun
    simp only [PeardHost.step, hw.not_drained hs, Bool.false_eq_true, or_self, and_false, if_false]
  | (i, t) :: ticks, s, home, h₁, hs, hw, hrun => by
    obtain ⟨h₂, hstep, hrest⟩ := Option.bind_eq_some_iff.mp hrun
    unfold PeardHost.step at hstep
    dsimp only at hstep
    split at hstep
    · cases hstep
    rename_i l hl
    split at hstep
    · cases hstep
    rename_i l' hl'
    obtain rfl := Option.some.inj hstep
    exact Peard.Wedged.not_exit (hs.tick hl hl') (hw.tick hl hl') hrest

/-- The registry has the same workspaces, and no loop is in a cycle that was not. -/
structure Peard.Quieter (s s' : Peard) : Prop where
  workers : s'.workers = s.workers
  closing : s'.closing = s.closing
  quiet : ∀ w : Worker, (s.control w).inCycle = false → (s'.control w).inCycle = false

/-- A registered loop in a cycle that is not wedged can end it. -/
theorem Peard.finish_cycle (debug : Text → Text) {s : Peard} (hs : s.Looped) (hw : ¬ s.Wedged) {k : Text} {w : Worker}
    (hk : s.workers[k]? = some w) (home : DaemonHome) : ∃ ticks s',
      Lib.replay (PeardHost.step debug) ⟨some s, home⟩ (tickEvents ticks) = some ⟨some s', home⟩ ∧
        s'.Looped ∧ ¬ s'.Wedged ∧ s.Quieter s' ∧ (s'.control w).inCycle = false := by
  by_cases hin : (s.control w).inCycle = true
  · obtain ⟨l, hl, -⟩ := hs.loop k w hk
    rw [Peard.control_eq hl] at hin
    obtain ⟨th, hth, hphase⟩ := (hs.ok _ _ hl).inCycle.mp hin
    have hcycling : th.phase = .cycling :=
      hphase.resolve_right fun hwedged => hw ⟨k, w, l, th, hk, hl, hth, hwedged⟩
    obtain ⟨l', hstep, hcontrol, hidle⟩ : ∃ l', l.step (.finish none) = some l' ∧
        l'.control.inCycle = false ∧ l'.thread.map (·.phase) = some .idle := by
      simp [Loop.step, hth, hcycling]
    have hget : (s.loops.set w.loop l')[w.loop]? = some l' :=
      List.getElem?_set_self (List.getElem?_eq_some_iff.mp hl).1
    refine ⟨[(w.loop, .finish none)], _, ?_, hs.tick hl hstep, ?_, ⟨rfl, rfl, fun w' hq => ?_⟩, ?_⟩
    · simp only [tickEvents, List.map_cons, List.map_nil, Lib.replay]
      rw [PeardHost.step_tick hl hstep]
      rfl
    · rintro ⟨q, w', l₀, th₀, hw', hl₀, hth₀, hph⟩
      dsimp only at hw' hl₀
      by_cases heq : w.loop = w'.loop
      · rw [← heq, hget] at hl₀
        obtain rfl := Option.some.inj hl₀
        rw [hth₀, Option.map_some, hph] at hidle
        cases hidle
      · rw [List.getElem?_set_ne heq] at hl₀
        exact hw ⟨q, w', l₀, th₀, hw', hl₀, hth₀, hph⟩
    · by_cases heq : w.loop = w'.loop
      · rw [heq] at hget
        rw [Peard.control_eq (s := { s with loops := s.loops.set w.loop l' }) (by rw [heq]; exact hget)]
        exact hcontrol
      · rw [Peard.control] at hq ⊢
        dsimp only
        rw [List.getElem?_set_ne heq]
        exact hq
    · rw [Peard.control_eq (s := { s with loops := s.loops.set w.loop l' }) hget]
      exact hcontrol
  · exact ⟨[], s, rfl, hs, hw, ⟨rfl, rfl, fun _ => id⟩, Bool.eq_false_iff.mpr hin⟩

/-- Registered loops can end their cycles, one after the other. -/
theorem Peard.finish_cycles (debug : Text → Text) (home : DaemonHome) : ∀ (ws : List (Text × Worker)) {s : Peard},
    s.Looped → ¬ s.Wedged → (∀ e ∈ ws, s.workers[e.1]? = some e.2) → ∃ ticks s',
      Lib.replay (PeardHost.step debug) ⟨some s, home⟩ (tickEvents ticks) = some ⟨some s', home⟩ ∧
        s.Quieter s' ∧ ∀ e ∈ ws, (s'.control e.2).inCycle = false
  | [], s, _, _, _ => ⟨[], s, rfl, ⟨rfl, rfl, fun _ => id⟩, fun e he => by cases he⟩
  | (k, w) :: ws, s, hs, hw, hmem => by
    obtain ⟨ticks₁, s₁, hrun₁, hs₁, hw₁, hq₁, hin₁⟩ :=
      Peard.finish_cycle debug hs hw (hmem (k, w) List.mem_cons_self) home
    obtain ⟨ticks₂, s₂, hrun₂, hq₂, hin₂⟩ := Peard.finish_cycles debug home ws hs₁ hw₁ fun e he => by
      rw [hq₁.workers]
      exact hmem e (List.mem_cons_of_mem _ he)
    refine ⟨ticks₁ ++ ticks₂, s₂, ?_, ⟨hq₂.workers.trans hq₁.workers, hq₂.closing.trans hq₁.closing,
      fun w' h => hq₂.quiet w' (hq₁.quiet w' h)⟩, fun e he => ?_⟩
    · rw [tickEvents, List.map_append]
      exact Lib.replay_append hrun₁ hrun₂
    · obtain rfl | he := List.mem_cons.mp he
      · exact hq₂.quiet w hin₁
      · exact hin₂ e he

/-- **A shutdown can end before its deadline just when no registered loop is wedged.** In every state of
every run in which the daemon shuts down: the loops' threads can come to a point where it exits without
its deadline, unless the cycle of a registered workspace met a fatal error, whose thread parked with the
cycle's guard in its hands. -/
theorem shutdown_drains_iff {es : List HostEvent} {s : Peard} (hdown : h.peard = none)
    (hrun : Lib.replay (PeardHost.step debug) h es = some h') (hs : h'.peard = some s)
    (hclosing : s.closing = true) :
    (∃ ticks h₁ h₂, Lib.replay (PeardHost.step debug) h' (tickEvents ticks) = some h₁ ∧
      h₁.step debug (.exit false) = some h₂) ↔ ¬ s.Wedged := by
  have hlooped : s.Looped := PeardHost.Looped.replay (fun s hs => by rw [hdown] at hs; cases hs) hrun s hs
  obtain ⟨peard, home⟩ := h'
  obtain rfl : peard = some s := hs
  constructor
  · rintro ⟨ticks, h₁, h₂, hticks, hexit⟩ hw
    rw [hw.not_exit hlooped hticks] at hexit
    cases hexit
  · intro hw
    obtain ⟨ticks, s', hticks, hq, hin⟩ := Peard.finish_cycles debug home
      s.workers.toList hlooped hw fun e he => Std.ExtTreeMap.mem_toList_iff_getElem?_eq_some.mp he
    have hdrained : s'.drained = true := by
      refine Peard.drained_iff.mpr fun k w hw' => ?_
      rw [hq.workers] at hw'
      exact hin (k, w) (Std.ExtTreeMap.mem_toList_iff_getElem?_eq_some.mpr hw')
    refine ⟨ticks, _, ⟨none, home⟩, hticks, ?_⟩
    simp only [PeardHost.step, hq.closing, hclosing, hdrained, true_or, and_self, if_true]

end

/-! ## Runs -/

/-- A loop that was removed past its check. -/
def pendingLoop : Loop :=
  ⟨{ stop := true }, some
    { registration := .watch watchedPath (.ofText "/t".toList), token := none, mirroring := false
      phase := .checked }⟩

/-- A loop that is removed past its check begins one more cycle. -/
theorem loop_stops_once : ∃ h s l h', Lib.replay (PeardHost.step id) {}
      [.start none, .serve watchLine watchedOs .saved true, .tick 0 .check,
        .serve (.ok (Request.remove watchedPath).toJson) watchedOs .saved true] = some h ∧
    h.peard = some s ∧ s.loops[0]? = some l ∧ l.pending = 1 ∧
    Lib.replay (PeardHost.step id) h [.tick 0 .enter, .tick 0 (.finish none), .tick 0 .check] = some h' ∧
      [HostEvent.tick 0 .enter, .tick 0 (.finish none), .tick 0 .check].countP (HostEvent.begins 0) ≤
        l.pending := by
  obtain ⟨h, hrun, hall⟩ := Option.map_eq_some_iff.mp (show (Lib.replay (PeardHost.step id) {}
      [.start none, .serve watchLine watchedOs .saved true, .tick 0 .check,
        .serve (.ok (Request.remove watchedPath).toJson) watchedOs .saved true]).map
          (fun h => (h.peard.map (·.loops), (Lib.replay (PeardHost.step id) h
            [.tick 0 .enter, .tick 0 (.finish none), .tick 0 .check]).isSome)) =
          some (some [pendingLoop], true) by decide +kernel)
  obtain ⟨hloops, hmore⟩ := Prod.mk.inj hall
  obtain ⟨s, hs, hl⟩ := Option.map_eq_some_iff.mp hloops
  obtain ⟨h', hrun'⟩ := Option.isSome_iff_exists.mp hmore
  have hget : s.loops[0]? = some pendingLoop := by rw [hl]; rfl
  exact ⟨h, s, pendingLoop, h', hrun, hs, hget, rfl, hrun',
    loop_stops rfl hrun hs hget rfl hrun' (fun t ht => by simp at ht)⟩

/-- The line that adds a relay workspace. -/
def convergeLine (token : Text) : Except Text Json :=
  .ok (Request.addConverge watchedPath ['r'] token none none none false none none).toJson

/-- A loop that met a fatal error in its cycle, in a daemon that shuts down. -/
def wedgedLoop : Loop :=
  ⟨{ stop := true, inCycle := true, error := some "401".toList }, some
    { registration := .converge watchedPath ['r'] none none none false none none
      token := some ['t'], mirroring := false, phase := .wedged }⟩

/-- After a fatal error a shutdown waits for its deadline. -/
theorem shutdown_drains_iff_wedged : ∃ h' s, Lib.replay (PeardHost.step id) {}
      [.start none, .serve (convergeLine ['t']) watchedOs .saved true, .tick 0 .check, .tick 0 .enter,
        .tick 0 (.fatal "401".toList), .serve (.ok Request.shutdown.toJson) watchedOs .saved true] =
        some h' ∧ h'.peard = some s ∧
    ¬ ∃ ticks h₁ h₂, Lib.replay (PeardHost.step id) h' (tickEvents ticks) = some h₁ ∧
      h₁.step id (.exit false) = some h₂ := by
  obtain ⟨h', hrun, hall⟩ := Option.map_eq_some_iff.mp (show (Lib.replay (PeardHost.step id) {}
      [.start none, .serve (convergeLine ['t']) watchedOs .saved true, .tick 0 .check, .tick 0 .enter,
        .tick 0 (.fatal "401".toList), .serve (.ok Request.shutdown.toJson) watchedOs .saved true]).map
          (fun h => h.peard.map fun s => (s.closing, s.loops, s.workers["/w".toList]?.map Worker.loop)) =
          some (some (true, [wedgedLoop], some 0)) by decide +kernel)
  obtain ⟨s, hs, hl⟩ := Option.map_eq_some_iff.mp hall
  obtain ⟨hclosing, hrest⟩ := Prod.mk.inj hl
  obtain ⟨hloops, hworker⟩ := Prod.mk.inj hrest
  obtain ⟨w, hw, hzero⟩ := Option.map_eq_some_iff.mp hworker
  refine ⟨h', s, hrun, hs, fun hdrain => (shutdown_drains_iff rfl hrun hs hclosing).mp hdrain ?_⟩
  exact ⟨_, w, wedgedLoop, _, hw, by rw [hloops, hzero]; rfl, rfl, rfl⟩

end Pear
