import Pear.Daemon.Durable

/-!
# The loops of the daemon

What holds of the loops and their controls in every state of the process (`Peard.Looped`): a loop that
was not asked to stop is the loop of a registered workspace, no two workspaces share one, and a control
says that a cycle is in flight exactly while its thread is in one, or is parked in the middle of one.
So a directory has at most one loop that was not asked to stop (`one_loop_per_directory`).
-/

namespace Pear

/-! ## Invariants -/

/-- The thread of a loop is in a cycle, or is parked in the middle of one. -/
def Loop.Busy (l : Loop) : Prop :=
  ∃ t, l.thread = some t ∧ (t.phase = .cycling ∨ t.phase = .wedged)

/-- What holds of a loop and its control. -/
structure Loop.Ok (l : Loop) : Prop where
  /-- A control says that a cycle is in flight while the guard of one is alive. -/
  inCycle : l.control.inCycle = true ↔ l.Busy
  /-- A loop with an error has come to its end. -/
  failed : l.control.error.isSome = true →
    ∀ t, l.thread = some t → t.phase = .ended ∨ t.phase = .wedged
  /-- A loop that parked in the middle of a cycle has an error. -/
  wedged : ∀ t, l.thread = some t → t.phase = .wedged → l.control.error.isSome = true

/-- What holds of the registry and its loops. -/
structure Peard.Looped (s : Peard) : Prop where
  ok : ∀ (i : Nat) (l : Loop), s.loops[i]? = some l → l.Ok
  /-- A loop that was not asked to stop is registered. -/
  live : ∀ (i : Nat) (l : Loop), s.loops[i]? = some l → l.control.stop = false →
    ∃ (k : Text) (w : Worker), s.workers[k]? = some w ∧ w.loop = i
  /-- A registered workspace has a loop, which runs its registration. -/
  loop : ∀ (k : Text) (w : Worker), s.workers[k]? = some w →
    ∃ l : Loop, s.loops[w.loop]? = some l ∧ ∀ t, l.thread = some t → t.registration = w.registration
  /-- No two workspaces share a loop. -/
  inj : ∀ (k k' : Text) (w w' : Worker), s.workers[k]? = some w → s.workers[k']? = some w' →
    w.loop = w'.loop → k = k'
  keyed : s.Keyed

/-! ## One step -/

/-- **What a loop's thread can do.** -/
inductive Loop.Move (c : LoopControl) (th : LoopThread) : LoopTick → Loop → Prop
  | rest {p : LoopPhase} (hphase : th.phase = .idle) (hp : p = .ended ∨ p = .parked) :
    Move c th .check ⟨c, some { th with phase := p }⟩
  | pass (hphase : th.phase = .idle) (hstop : c.stop = false) :
    Move c th .check ⟨c, some { th with phase := .checked }⟩
  | enter (hphase : th.phase = .checked) :
    Move c th .enter ⟨{ c with inCycle := true }, some { th with phase := .cycling }⟩
  | leave {t : LoopTick} (ht : t ≠ .enter) (hphase : th.phase = .cycling) (seq : UInt64) (m : Bool) :
    Move c th t ⟨{ c with inCycle := false, headSeq := seq },
      some { th with mirroring := m, phase := .idle }⟩
  | fatal (hphase : th.phase = .cycling) (message : Text) :
    Move c th (.fatal message)
      ⟨{ c.recordError message with inCycle := false }, some { th with phase := .ended }⟩
  | wedge (hphase : th.phase = .cycling) (message : Text) :
    Move c th (.fatal message) ⟨c.recordError message, some { th with phase := .wedged }⟩
  | fail (hphase : th.phase = .idle) (message : Text) :
    Move c th (.fail message) ⟨c.recordError message, some { th with phase := .ended }⟩

section
variable {s s' : Peard} {l l' : Loop} {t : LoopTick} {i : Nat}

theorem Loop.move_of_step (h : l.step t = some l') :
    ∃ th, l.thread = some th ∧ Loop.Move l.control th t l' := by
  obtain ⟨control, thread⟩ := l
  cases thread with
  | none => cases h
  | some th =>
    refine ⟨th, rfl, ?_⟩
    dsimp only
    cases hphase : th.phase <;> cases t <;>
      simp only [Loop.step, hphase, reduceCtorEq, Option.some.injEq] at h
    · -- The check: a mirror looks at `stop` only, the others at the error too.
      split at h
      · cases h
        split
        · exact .rest hphase (.inl rfl)
        · exact .pass hphase (by simpa using ‹¬control.stop = true›)
      · cases h
        split
        · exact .rest hphase (.inr rfl)
        · rename_i hdone
          refine .pass hphase ?_
          simp only [LoopControl.done, Bool.or_eq_true, not_or] at hdone
          simpa using hdone.1
    · cases h
      exact .fail hphase _
    · cases h
      exact .enter hphase
    · cases h
      exact .leave (by simp) hphase _ _
    · split at h
      · cases h
        exact .fatal hphase _
      · split at h
        · cases h
          exact .wedge hphase _
        · cases h
    · split at h
      · cases h
        exact .leave (by simp) hphase _ _
      · cases h

/-- A step of its thread keeps a loop well. -/
theorem Loop.Move.ok {th : LoopThread} (hm : Loop.Move l.control th t l') (hth : l.thread = some th)
    (hl : l.Ok) : l'.Ok := by
  obtain ⟨hcycle, hfailed, hwedged⟩ := hl
  -- A thread that goes on has no error.
  have hgoes : th.phase ≠ .ended → th.phase ≠ .wedged → l.control.error.isSome = true → False :=
    fun he hw herr => (hfailed herr th hth).elim he hw
  have hbusy : th.phase ≠ .cycling → th.phase ≠ .wedged → l.control.inCycle = false := by
    intro hc hw
    refine Bool.eq_false_iff.mpr fun hin => ?_
    obtain ⟨th', hth', h⟩ := hcycle.mp hin
    rw [hth] at hth'
    obtain rfl := Option.some.inj hth'
    exact h.elim hc hw
  have hin : th.phase = .cycling → l.control.inCycle = true :=
    fun hc => hcycle.mpr ⟨th, hth, .inl hc⟩
  cases hm with
  | rest hphase hp =>
    have hidle := hbusy (by simp [hphase]) (by simp [hphase])
    have hclean := hgoes (by simp [hphase]) (by simp [hphase])
    constructor
    · constructor
      · simp [hidle]
      · rintro ⟨_, heq, h⟩
        obtain rfl := Option.some.inj heq
        obtain rfl | rfl := hp <;> simp at h
    · exact fun herr => absurd herr hclean
    · intro _ heq h
      obtain rfl := Option.some.inj heq
      obtain rfl | rfl := hp <;> simp at h
  | pass hphase hstop =>
    have hidle := hbusy (by simp [hphase]) (by simp [hphase])
    have hclean := hgoes (by simp [hphase]) (by simp [hphase])
    constructor
    · simp [hidle, Loop.Busy]
    · exact fun herr => absurd herr hclean
    · intro _ heq h
      obtain rfl := Option.some.inj heq
      simp at h
  | enter hphase =>
    have hclean := hgoes (by simp [hphase]) (by simp [hphase])
    constructor
    · simp [Loop.Busy]
    · exact fun herr => absurd herr hclean
    · intro _ heq h
      obtain rfl := Option.some.inj heq
      simp at h
  | leave ht hphase seq m =>
    have hclean := hgoes (by simp [hphase]) (by simp [hphase])
    constructor
    · simp [Loop.Busy]
    · exact fun herr => absurd herr hclean
    · intro _ heq h
      obtain rfl := Option.some.inj heq
      simp at h
  | fatal hphase message =>
    constructor
    · simp [Loop.Busy]
    · intro _ _ heq
      obtain rfl := Option.some.inj heq
      exact .inl rfl
    · intro _ heq h
      obtain rfl := Option.some.inj heq
      simp at h
  | wedge hphase message =>
    constructor
    · simp [Loop.Busy, LoopControl.recordError, hin hphase]
    · intro _ _ heq
      obtain rfl := Option.some.inj heq
      exact .inr rfl
    · intro _ _ _
      cases herr : l.control.error <;> simp [LoopControl.recordError, herr]
  | fail hphase message =>
    have hidle := hbusy (by simp [hphase]) (by simp [hphase])
    constructor
    · simp [Loop.Busy, LoopControl.recordError, hidle]
    · intro _ _ heq
      obtain rfl := Option.some.inj heq
      exact .inl rfl
    · intro _ heq h
      obtain rfl := Option.some.inj heq
      simp at h

/-- A step of its thread changes neither its stop flag nor what it runs. -/
theorem Loop.Move.keeps {c : LoopControl} {th : LoopThread} (hm : Loop.Move c th t l') :
    l'.control.stop = c.stop ∧ ∃ th', l'.thread = some th' ∧ th'.registration = th.registration := by
  cases hm <;> exact ⟨rfl, _, rfl, rfl⟩

/-- A loop that is asked to stop is as well as before. -/
theorem Loop.Ok.stopped (hl : l.Ok) : Loop.Ok { l with control := { l.control with stop := true } } :=
  ⟨hl.inCycle, hl.failed, hl.wedged⟩

/-- A new loop is well: its thread has not begun, or it has none. -/
theorem Loop.Ok.fresh (registration : Registration) (token : Option Text) :
    Loop.Ok { thread := some (spawnWorker registration token) } := by
  constructor
  · simp [Loop.Busy, spawnWorker]
  · exact fun h => by cases h
  · intro _ heq h
    obtain rfl := Option.some.inj heq
    cases h

theorem Loop.Ok.resumed (token : Option Text) (registration : Registration) :
    (Peard.resume token registration).Ok := by
  unfold Peard.resume
  cases registration.needsToken with
  | false => exact .fresh registration none
  | true =>
    cases token with
    | some token => exact .fresh registration (some token)
    | none =>
      constructor
      · simp [Loop.Busy, LoopControl.recordError]
      · intro _ _ h
        cases h
      · intro _ h
        cases h

/-- A restored loop runs its registration. -/
theorem Peard.thread_resume (token : Option Text) (registration : Registration) :
    (Peard.resume token registration).control.stop = false ∧
      ∀ th, (Peard.resume token registration).thread = some th → th.registration = registration := by
  unfold Peard.resume
  cases registration.needsToken with
  | false => exact ⟨rfl, fun th h => by obtain rfl := Option.some.inj h; rfl⟩
  | true =>
    cases token with
    | some token => exact ⟨rfl, fun th h => by obtain rfl := Option.some.inj h; rfl⟩
    | none => exact ⟨rfl, fun th h => by cases h⟩

/-! ## The registry -/

/-- A registry without loops. -/
theorem Peard.looped_empty : Peard.Looped {} := by
  have hnone : ∀ (k : Text) (w : Worker), ({} : Peard).workers[k]? ≠ some w := by
    intro k w hw
    rw [show ({} : Peard).workers = ∅ from rfl, Std.ExtTreeMap.getElem?_empty] at hw
    cases hw
  constructor
  · exact fun i l hl => by cases hl
  · exact fun i l hl => by cases hl
  · exact fun k w hw => absurd hw (hnone k w)
  · exact fun k _ w _ hw => absurd hw (hnone k w)
  · exact fun k w hw => absurd hw (hnone k w)

/-- The loops of workspaces were started. -/
theorem Peard.Looped.loop_lt (hs : s.Looped) {k : Text} {w : Worker} (hw : s.workers[k]? = some w) :
    w.loop < s.loops.length := by
  obtain ⟨l, hl, -⟩ := hs.loop k w hw
  exact (List.getElem?_eq_some_iff.mp hl).1

/-- **A new workspace gets a loop of its own.** -/
theorem Peard.Looped.insert (hs : s.Looped) {reg : Registration}
    (hnone : s.workers[reg.key]? = none) (hok : l.Ok)
    (hth : ∀ th, l.thread = some th → th.registration = reg) : (s.insert reg l).Looped := by
  have hget : ∀ (i : Nat) (l' : Loop), (s.loops ++ [l])[i]? = some l' →
      s.loops[i]? = some l' ∨ i = s.loops.length ∧ l' = l := by
    intro i l' h
    rw [List.getElem?_append] at h
    split at h
    · exact .inl h
    · rename_i hi
      rw [List.getElem?_singleton] at h
      split at h
      · exact .inr ⟨by omega, (Option.some.inj h).symm⟩
      · cases h
  have hold : ∀ {i : Nat} {l' : Loop}, s.loops[i]? = some l' → (s.loops ++ [l])[i]? = some l' := by
    intro i l' h
    rw [List.getElem?_append_left (List.getElem?_eq_some_iff.mp h).1]
    exact h
  constructor
  · intro i l' hl'
    obtain h | ⟨-, rfl⟩ := hget i l' hl'
    · exact hs.ok i l' h
    · exact hok
  · intro i l' hl' hstop
    obtain h | ⟨rfl, rfl⟩ := hget i l' hl'
    · obtain ⟨k, w, hw, hi⟩ := hs.live i l' h hstop
      have hk : reg.key ≠ k := by
        rintro rfl
        rw [hnone] at hw
        cases hw
      refine ⟨k, w, ?_, hi⟩
      unfold Peard.insert
      rw [Lib.getElem?_insert_eq, if_neg hk]
      exact hw
    · refine ⟨reg.key, ⟨reg, s.loops.length⟩, ?_, rfl⟩
      unfold Peard.insert
      rw [Lib.getElem?_insert_eq, if_pos rfl]
  · intro k w hw
    obtain ⟨-, rfl⟩ | ⟨-, hw⟩ := Lib.getElem?_insert_cases hw
    · refine ⟨l, ?_, hth⟩
      unfold Peard.insert
      dsimp only
      rw [List.getElem?_append_right le_rfl, Nat.sub_self]
      rfl
    · obtain ⟨l', hl', h⟩ := hs.loop k w hw
      exact ⟨l', hold hl', h⟩
  · intro k k' w w' hw hw' heq
    obtain ⟨rfl, rfl⟩ | ⟨-, hw⟩ := Lib.getElem?_insert_cases hw <;>
      obtain ⟨rfl, rfl⟩ | ⟨-, hw'⟩ := Lib.getElem?_insert_cases hw'
    · rfl
    · exact absurd (hs.loop_lt hw') (by rw [← heq]; exact lt_irrefl _)
    · exact absurd (hs.loop_lt hw) (by rw [heq]; exact lt_irrefl _)
    · exact hs.inj k k' w w' hw hw' heq
  · exact Peard.keyed_insert hs.keyed _ _

/-- What is found in the loops after one was asked to stop. -/
theorem Peard.getElem?_stopLoop {loops : List Loop} {j : Nat} (h : (stopLoop loops i)[j]? = some l) :
    ∃ l₀, loops[j]? = some l₀ ∧ l.thread = l₀.thread ∧ (l₀.Ok → l.Ok) ∧
      (l.control.stop = false → j ≠ i ∧ l = l₀) := by
  rw [stopLoop, List.getElem?_modify] at h
  cases hl : loops[j]? with
  | none =>
    rw [hl] at h
    cases h
  | some l₀ =>
    rw [hl] at h
    by_cases hij : i = j
    · obtain rfl := Option.some.inj h
      refine ⟨l₀, rfl, ?_, ?_, ?_⟩
      · simp [hij]
      · intro hok
        simpa [hij] using hok.stopped
      · simp [hij]
    · obtain rfl := Option.some.inj h
      refine ⟨l₀, rfl, ?_, ?_, ?_⟩ <;> simp [hij, Ne.symm hij]

theorem Peard.getElem?_stopLoop_some {loops : List Loop} {j : Nat} (h : loops[j]? = some l) :
    ∃ l', (stopLoop loops i)[j]? = some l' ∧ l'.thread = l.thread := by
  rw [stopLoop, List.getElem?_modify, h]
  by_cases hij : i = j
  · exact ⟨_, rfl, by simp [hij]⟩
  · exact ⟨_, rfl, by simp [hij]⟩

/-- **A removed workspace's loop is asked to stop.** -/
theorem Peard.Looped.erase (hs : s.Looped) {k : Text} {w : Worker} (hw : s.workers[k]? = some w) :
    Peard.Looped { s with workers := s.workers.erase k, loops := stopLoop s.loops w.loop } := by
  constructor
  · intro i l hl
    obtain ⟨l₀, hl₀, -, hok, -⟩ := Peard.getElem?_stopLoop hl
    exact hok (hs.ok i l₀ hl₀)
  · intro i l hl hstop
    obtain ⟨l₀, hl₀, -, -, hlive⟩ := Peard.getElem?_stopLoop hl
    obtain ⟨hi, rfl⟩ := hlive hstop
    obtain ⟨q, w', hw', rfl⟩ := hs.live i l hl₀ hstop
    refine ⟨q, w', ?_, rfl⟩
    have hq : k ≠ q := by
      rintro rfl
      rw [hw] at hw'
      exact hi (congrArg Worker.loop (Option.some.inj hw')).symm
    rw [Lib.getElem?_erase_eq, if_neg hq]
    exact hw'
  · intro q w' hw'
    obtain ⟨-, hw'⟩ := Lib.getElem?_of_erase hw'
    obtain ⟨l, hl, hth⟩ := hs.loop q w' hw'
    obtain ⟨l', hl', hthread⟩ := Peard.getElem?_stopLoop_some (i := w.loop) hl
    exact ⟨l', hl', by rw [hthread]; exact hth⟩
  · intro q q' w₁ w₂ h₁ h₂ heq
    exact hs.inj q q' w₁ w₂ (Lib.getElem?_of_erase h₁).2 (Lib.getElem?_of_erase h₂).2 heq
  · exact fun q w' hw' => hs.keyed q w' (Lib.getElem?_of_erase hw').2

/-- Asking registered loops to stop, as the shutdown does. -/
theorem Peard.Looped.stop (hs : s.Looped) (i : Nat) : Peard.Looped { s with loops := stopLoop s.loops i } := by
  constructor
  · intro j l hl
    obtain ⟨l₀, hl₀, -, hok, -⟩ := Peard.getElem?_stopLoop hl
    exact hok (hs.ok j l₀ hl₀)
  · intro j l hl hstop
    obtain ⟨l₀, hl₀, -, -, hlive⟩ := Peard.getElem?_stopLoop hl
    obtain ⟨-, rfl⟩ := hlive hstop
    exact hs.live j l hl₀ hstop
  · intro q w' hw'
    obtain ⟨l, hl, hth⟩ := hs.loop q w' hw'
    obtain ⟨l', hl', hthread⟩ := Peard.getElem?_stopLoop_some (i := i) hl
    exact ⟨l', hl', by rw [hthread]; exact hth⟩
  · exact hs.inj
  · exact hs.keyed

theorem Peard.Looped.shutdown (hs : s.Looped) : s.shutdown.Looped := by
  have hfold : ∀ (is : List Nat) (loops : List Loop), Peard.Looped { s with loops := loops } →
      Peard.Looped { s with loops := is.foldl stopLoop loops } := by
    intro is
    induction is with
    | nil => exact fun loops h => h
    | cons i is ih => exact fun loops h => ih _ (h.stop i)
  have h := hfold (s.workers.toList.map (·.2.loop)) s.loops hs
  exact ⟨h.ok, h.live, h.loop, h.inj, h.keyed⟩

/-- **A step of a loop's thread.** -/
theorem Peard.Looped.tick (hs : s.Looped) (hl : s.loops[i]? = some l) (hstep : l.step t = some l') :
    Peard.Looped { s with loops := s.loops.set i l' } := by
  obtain ⟨th, hth, hmove⟩ := Loop.move_of_step hstep
  obtain ⟨hstop, th', hth', hreg⟩ := hmove.keeps
  have hi := (List.getElem?_eq_some_iff.mp hl).1
  have hget : ∀ (j : Nat) (l₁ : Loop), (s.loops.set i l')[j]? = some l₁ →
      i = j ∧ l₁ = l' ∨ i ≠ j ∧ s.loops[j]? = some l₁ := by
    intro j l₁ h
    rw [List.getElem?_set] at h
    split at h
    · rename_i hij
      exact .inl ⟨hij, (Option.some.inj h).symm⟩
    · rename_i hij
      exact .inr ⟨hij, h⟩
  constructor
  · intro j l₁ h
    obtain ⟨rfl, rfl⟩ | ⟨-, h⟩ := hget j l₁ h
    · exact hmove.ok hth (hs.ok _ _ hl)
    · exact hs.ok j l₁ h
  · intro j l₁ h hlive
    obtain ⟨rfl, rfl⟩ | ⟨-, h⟩ := hget j l₁ h
    · exact hs.live _ _ hl (by rw [← hstop]; exact hlive)
    · exact hs.live j l₁ h hlive
  · intro k w hw
    obtain ⟨l₀, hl₀, h⟩ := hs.loop k w hw
    by_cases hij : i = w.loop
    · subst hij
      rw [hl] at hl₀
      obtain rfl := Option.some.inj hl₀
      refine ⟨l', by rw [List.getElem?_set_self hi], fun t₁ ht₁ => ?_⟩
      rw [hth'] at ht₁
      obtain rfl := Option.some.inj ht₁
      rw [hreg]
      exact h th hth
    · exact ⟨l₀, by rw [List.getElem?_set_ne hij]; exact hl₀, h⟩
  · exact hs.inj
  · exact hs.keyed

/-- A restarted daemon. -/
theorem Peard.looped_restore (token : Option Text) (rs : List Registration) :
    (Peard.restore token rs).Looped := by
  have hfold : ∀ (rs : List Registration) (s : Peard), s.Looped →
      (rs.foldl (Peard.restoreOne token) s).Looped := by
    intro rs
    induction rs with
    | nil => exact fun s hs => hs
    | cons r rs ih =>
      intro s hs
      refine ih _ ?_
      unfold Peard.restoreOne
      split
      · exact hs
      · rename_i hnone
        exact hs.insert (by simpa using hnone) (.resumed token r) (Peard.thread_resume token r).2
  exact hfold rs {} Peard.looped_empty

end

/-! ## Runs -/

/-- The loops of the running process, if there is one. -/
def PeardHost.Looped (h : PeardHost) : Prop := ∀ s, h.peard = some s → s.Looped

section
variable {debug : Text → Text} {h h' : PeardHost} {line : Except Text Json} {os : OsAnswers}
  {how : SaveEnd} {delivered : Bool} {home : DaemonHome}

/-- **What a connection does to the registry and its loops**: nothing, a loop is added, one is removed,
or the daemon begins to shut down. -/
theorem Peard.serve_cases (debug : Text → Text) (s : Peard) (line : Except Text Json) (os : OsAnswers) (how : SaveEnd)
    (delivered : Bool) (home : DaemonHome) (s' : Peard)
    (hs' : (s.serve debug line os how delivered home).2.1 = s') :
    s' = s ∨ s' = s.shutdown ∨
      (∃ reg token, s.workers[reg.key]? = none ∧
        s' = s.insert reg { thread := some (spawnWorker reg token) }) ∨
      ∃ k w, s.workers[k]? = some w ∧
        s' = { s with workers := s.workers.erase k, loops := stopLoop s.loops w.loop } := by
  cases hc : s.changed debug line os with
  | some res =>
    obtain ⟨k, s₁⟩ := res
    rw [(Peard.serve_of_changed how delivered home hc).1] at hs'
    subst hs'
    unfold Peard.changed at hc
    split at hc
    · cases hc
    split at hc
    · rename_i hp
      obtain ⟨k', -, hk'⟩ := Option.map_eq_some_iff.mp hc
      cases hk'
      obtain ⟨reg, token, -, hnone, -, heq⟩ | ⟨k, w, -, hw, heq⟩ := Peard.perform_cases hp
      · exact .inr (.inr (.inl ⟨reg, token, hnone, heq⟩))
      · exact .inr (.inr (.inr ⟨k, w, hw, heq⟩))
    · cases hc
  | none =>
    unfold Peard.changed at hc
    unfold Peard.serve at hs'
    cases hr : parseLine debug line with
    | error e =>
      rw [hr] at hs'
      exact .inl hs'.symm
    | ok r =>
      rw [hr] at hc hs'
      dsimp only at hc
      have hdispatch : (s.dispatch r os how home).2.1 = s := by
        unfold Peard.dispatch
        split
        · rfl
        · rfl
        · rename_i answer s₁ hp
          rw [hp] at hc
          obtain ⟨reg, token, hkey, -⟩ | ⟨k, w, hkey, -⟩ := Peard.perform_cases hp <;>
            · rw [hkey] at hc
              cases hc
      cases r with
      | shutdown =>
        cases delivered with
        | true => exact .inr (.inl hs'.symm)
        | false => exact .inl hs'.symm
      | _ =>
        dsimp only at hs'
        rw [hdispatch] at hs'
        exact .inl hs'.symm

/-- **Every step of the host keeps the loops well.** -/
theorem PeardHost.Looped.step {e : HostEvent} (hh : h.Looped) (he : h.step debug e = some h') :
    h'.Looped := by
  obtain ⟨peard, home⟩ := h
  cases peard with
  | none =>
    cases e with
    | start pearToken =>
      unfold PeardHost.step at he
      dsimp only at he
      split at he
      · obtain rfl := Option.some.inj he
        intro s hs
        obtain rfl := Option.some.inj hs
        exact Peard.looped_restore _ _
      · obtain rfl := Option.some.inj he
        exact hh
    | _ => cases he
  | some s =>
    have hs := hh s rfl
    unfold PeardHost.step at he
    cases e with
    | start pearToken => cases he
    | serve line os how delivered =>
      dsimp only at he
      split at he
      · cases he
      obtain rfl := Option.some.inj he
      intro s' hs'
      have hserve := Peard.serve_cases debug s line os how delivered home s' (Option.some.inj hs')
      obtain rfl | rfl | ⟨reg, token, hnone, rfl⟩ | ⟨k, w, hw, rfl⟩ := hserve
      · exact hs
      · exact hs.shutdown
      · refine hs.insert hnone (.fresh reg token) fun th hth => ?_
        obtain rfl := Option.some.inj hth
        rfl
      · exact hs.erase hw
    | dieServing line os point =>
      dsimp only at he
      split at he
      · cases he
      obtain rfl := Option.some.inj he
      intro s' hs'
      cases hs'
    | die =>
      obtain rfl := Option.some.inj he
      intro s' hs'
      cases hs'
    | tick i t =>
      dsimp only at he
      split at he
      · cases he
      rename_i l hl
      split at he
      · cases he
      rename_i l' hstep
      obtain rfl := Option.some.inj he
      intro s' hs'
      obtain rfl := Option.some.inj hs'
      exact hs.tick hl hstep
    | exit deadline =>
      dsimp only at he
      split at he
      · obtain rfl := Option.some.inj he
        intro s' hs'
        cases hs'
      · cases he

/-- **Every run keeps the loops well.** -/
theorem PeardHost.Looped.replay : ∀ {es : List HostEvent} {h h' : PeardHost}, h.Looped →
    Lib.replay (PeardHost.step debug) h es = some h' → h'.Looped
  | [], h, h', hh, hrun => by
    obtain rfl := Option.some.inj hrun
    exact hh
  | e :: es, h, h', hh, hrun => by
    obtain ⟨h₁, hstep, hrest⟩ := Option.bind_eq_some_iff.mp hrun
    exact PeardHost.Looped.replay (hh.step hstep) hrest

/-- **A directory has one loop that was not asked to stop.** In every state of every run: of two loops
that run registrations of the same directory, one was asked to stop, so of two cycles on a directory one
is the last of a loop that was removed. -/
theorem one_loop_per_directory {es : List HostEvent} {s : Peard} {i j : Nat} {l l' : Loop}
    {th th' : LoopThread} (hdown : h.peard = none)
    (hrun : Lib.replay (PeardHost.step debug) h es = some h') (hs : h'.peard = some s)
    (hi : s.loops[i]? = some l) (hj : s.loops[j]? = some l') (hth : l.thread = some th)
    (hth' : l'.thread = some th') (hkey : th.registration.key = th'.registration.key) (hij : i ≠ j) :
    l.control.stop = true ∨ l'.control.stop = true := by
  have hlooped : s.Looped := PeardHost.Looped.replay (fun s hs => by rw [hdown] at hs; cases hs) hrun s hs
  by_contra hstop
  rw [not_or, Bool.not_eq_true, Bool.not_eq_true] at hstop
  obtain ⟨k, w, hw, rfl⟩ := hlooped.live i l hi hstop.1
  obtain ⟨k', w', hw', rfl⟩ := hlooped.live j l' hj hstop.2
  obtain ⟨l₁, hl₁, hreg⟩ := hlooped.loop k w hw
  obtain ⟨l₂, hl₂, hreg'⟩ := hlooped.loop k' w' hw'
  rw [hi] at hl₁
  rw [hj] at hl₂
  obtain rfl := Option.some.inj hl₁
  obtain rfl := Option.some.inj hl₂
  -- Each is registered at the key of its directory, which is the same.
  have hk : k = k' := by
    rw [← hlooped.keyed k w hw, ← hlooped.keyed k' w' hw', ← hreg th hth, ← hreg' th' hth', hkey]
  subst hk
  rw [hw] at hw'
  exact hij (congrArg Worker.loop (Option.some.inj hw'))

end

/-! ## A run -/

/-- The two loops of a directory that was removed in a cycle and added again. -/
def removedLoop : Loop :=
  ⟨{ stop := true, inCycle := true }, some
    { registration := .watch watchedPath (.ofText "/t".toList), token := none, mirroring := false
      phase := .cycling }⟩

def addedLoop : Loop :=
  ⟨{ inCycle := true }, some
    { registration := .watch watchedPath (.ofText "/t".toList), token := none, mirroring := false
      phase := .cycling }⟩

/-- A watch is removed in a cycle and added again: both loops are in a cycle, and one was asked to stop. -/
theorem one_loop_per_directory_again : ∃ h' s, Lib.replay (PeardHost.step id) {}
      [.start none, .serve watchLine watchedOs .saved true, .tick 0 .check, .tick 0 .enter,
        .serve (.ok (Request.remove watchedPath).toJson) watchedOs .saved true,
        .serve watchLine watchedOs .saved true, .tick 1 .check, .tick 1 .enter] = some h' ∧
    h'.peard = some s ∧ s.loops = [removedLoop, addedLoop] ∧
      (removedLoop.control.stop = true ∨ addedLoop.control.stop = true) := by
  obtain ⟨h', hrun, hloops⟩ := Option.map_eq_some_iff.mp (show (Lib.replay (PeardHost.step id) {}
      [.start none, .serve watchLine watchedOs .saved true, .tick 0 .check, .tick 0 .enter,
        .serve (.ok (Request.remove watchedPath).toJson) watchedOs .saved true,
        .serve watchLine watchedOs .saved true, .tick 1 .check, .tick 1 .enter]).map
          (fun h => h.peard.map (·.loops)) = some (some [removedLoop, addedLoop]) by decide +kernel)
  obtain ⟨s, hs, hl⟩ := Option.map_eq_some_iff.mp hloops
  refine ⟨h', s, hrun, hs, hl, ?_⟩
  exact one_loop_per_directory rfl hrun hs (i := 0) (j := 1) (by rw [hl]; rfl) (by rw [hl]; rfl) rfl
    rfl rfl (by decide)

end Pear
