import Pear.Lib.Runs
import Pear.Store

/-!
# A chunk store that is shared

What the processes that share a chunk store can rely on, in every interleaving of their calls. In every
state the tasks are in order (`StoreSystem.Sane`): the temporaries of two puts differ, so nobody writes
into another's. A chunk is held when its file is intact and nobody is about to remove it, and then only a
sweep that does not keep it can end that (`held_chunk_stays`). Over intact files no get removes anything,
so from a store without torn files a chunk that was found once is found by everyone
(`found_chunk_stays_found`). Over a torn file two gets can both find it torn, and the slower one removes
what was put in between (`torn_chunk_loses_put`).
-/

namespace Pear

section
variable {blake3 : Bytes → Text} {s s' t : StoreSystem} {hash : Text} {e : StoreEvent} {i j : Nat}
  {d d' dir : StoreDir} {task task' : StoreTask} {n : StoreTask ⊕ StoreAnswer} {a : StoreAnswer}
  {checked : Prop}

/-! ## Steps -/

/-- The tasks after a step of one of them. -/
theorem StoreSystem.tasks_next (s : StoreSystem) (i : Nat) (d : StoreDir)
    (n : StoreTask ⊕ StoreAnswer) (j : Nat) :
    (s.next i d n).tasks[j]? = if i = j then n.getLeft? else s.tasks[j]? := by
  cases n with
  | inl t => exact Lib.getElem?_insert_eq s.tasks i t j
  | inr a => exact Lib.getElem?_erase_eq s.tasks i j

theorem StoreSystem.dir_next (s : StoreSystem) (i : Nat) (d : StoreDir)
    (n : StoreTask ⊕ StoreAnswer) : (s.next i d n).dir = d := by
  cases n <;> rfl

theorem StoreSystem.answers_next (s : StoreSystem) (i : Nat) (d : StoreDir)
    (n : StoreTask ⊕ StoreAnswer) : (s.next i d n).answers = n.getRight?.toList ++ s.answers := by
  cases n <;> rfl

/-- What a step can be. -/
inductive StoreMove (blake3 : Bytes → Text) (s : StoreSystem) : StoreEvent → StoreSystem → Prop
  | call {i : Nat} {r : StoreRequest} (hi : s.tasks[i]? = none)
    (hclear : ∀ p, r = .put p → s.tmpFree p.tmp = true) :
    StoreMove blake3 s (.call i r) (s.next i s.dir (r.begin blake3 s.dir.now))
  | step {i : Nat} {o : StoreOutcome} {task : StoreTask} {n : StoreTask ⊕ StoreAnswer} {d : StoreDir}
    (hi : s.tasks[i]? = some task) (hrun : TaskStep blake3 s.dir task o n d) :
    StoreMove blake3 s (.step i o) (s.next i d n)
  | kill {i : Nat} : StoreMove blake3 s (.kill i) { s with tasks := s.tasks.erase i }
  | tick {now : Int} : StoreMove blake3 s (.tick now) { s with dir := { s.dir with now } }

theorem StoreSystem.step_move (h : s.step blake3 e = some s') : StoreMove blake3 s e s' := by
  cases e with
  | call i r =>
    by_cases hcond : s.tasks[i]? = none ∧ s.clear r = true
    · obtain rfl : s.next i s.dir (r.begin blake3 s.dir.now) = s' :=
        Option.some.inj ((if_pos hcond).symm.trans h)
      refine .call hcond.1 fun p hp => ?_
      subst hp
      exact hcond.2
    · cases (if_neg hcond).symm.trans h
  | step i o =>
    obtain ⟨task, hi, htask⟩ := Option.bind_eq_some_iff.mp h
    obtain ⟨⟨n, d⟩, hrun, rfl⟩ := Option.map_eq_some_iff.mp htask
    exact .step hi (StoreTask.step_of_run hrun)
  | kill i =>
    cases h
    exact .kill
  | tick now =>
    cases h
    exact .tick

/-! ## What holds in every state -/

/-- Every task is in order, and no two puts have one temporary. -/
structure StoreSystem.Sane (blake3 : Bytes → Text) (s : StoreSystem) : Prop where
  task : ∀ (i : Nat) (t : StoreTask), s.tasks[i]? = some t → t.Ok blake3 s.dir
  tmp : ∀ (i j : Nat) (T : Text), s.tasks[i]?.bind StoreTask.tmp? = some T →
    s.tasks[j]?.bind StoreTask.tmp? = some T → i = j

/-- A task stays in order when its temporary is left alone or removed. -/
theorem StoreTask.Ok.mono (h : task.Ok blake3 d)
    (htemp : ∀ T, task.tmp? = some T → d'.temps[T]? = d.temps[T]? ∨ d'.temps[T]? = none) :
    task.Ok blake3 d' := by
  have hkept : ∀ {T : Text} {f : Bytes × Int}, task.tmp? = some T → d'.temps[T]? = some f →
      d.temps[T]? = some f := by
    intro T f hT hf
    rcases htemp T hT with hsame | hnone
    · exact hsame ▸ hf
    · rw [hnone] at hf
      cases hf
  cases task with
  | putWrite p left => exact ⟨h.1, fun f hf => h.2 f (hkept rfl hf)⟩
  | putSync p | putRename p => exact ⟨h.1, fun f hf => h.2 f (hkept rfl hf)⟩
  | _ => exact h

/-- What a call begins with is in order. -/
theorem StoreRequest.begin_ok {r : StoreRequest} {now : Int} (h : r.begin blake3 now = .inl task) :
    task.Ok blake3 d ∧ ∀ T, task.tmp? = some T → ∃ p, r = .put p ∧ p.tmp = T := by
  cases r with
  | get hash | has hash =>
    unfold begin at h
    dsimp only at h
    split at h
    · cases h
      exact ⟨trivial, fun T hT => by cases hT⟩
    · cases h
  | put p =>
    unfold begin at h
    dsimp only at h
    split at h
    · rename_i hp
      cases h
      exact ⟨hp.1, fun T hT => ⟨p, rfl, Option.some.inj hT⟩⟩
    · cases h
  | sweep | sweepTmp =>
    cases h
    exact ⟨trivial, fun T hT => by cases hT⟩

/-- A temporary that is free is nobody's. -/
theorem StoreSystem.ne_of_tmpFree {T : Text} (h : s.tmpFree T = true) (i : Nat) :
    s.tasks[i]?.bind StoreTask.tmp? ≠ some T := by
  intro hi
  have hmem : i ∈ s.tasks.keys := Lib.mem_keys_iff.mpr fun hnone => by
    rw [hnone] at hi
    cases hi
  exact of_decide_eq_true (List.all_eq_true.mp h i hmem) hi

/-- **A step keeps the tasks in order.** -/
theorem StoreSystem.sane_step (hs : s.Sane blake3) (h : s.step blake3 e = some s') :
    s'.Sane blake3 := by
  cases step_move h with
  | @call i r hi hclear =>
    refine ⟨fun j task hj => ?_, fun j k T hj hk => ?_⟩
    · rw [tasks_next] at hj
      rw [dir_next]
      split at hj
      · exact (StoreRequest.begin_ok (Sum.getLeft?_eq_some_iff.mp hj)).1
      · exact hs.task j task hj
    · have htmp : ∀ j : Nat, (s.next i s.dir (r.begin blake3 s.dir.now)).tasks[j]?.bind StoreTask.tmp? =
          some T → i = j ∧ s.tmpFree T = true ∨ s.tasks[j]?.bind StoreTask.tmp? = some T := by
        intro j hj
        rw [tasks_next] at hj
        split at hj
        · rename_i hij
          obtain ⟨task, htask, hT⟩ := Option.bind_eq_some_iff.mp hj
          obtain ⟨p, hp, rfl⟩ := (StoreRequest.begin_ok (d := s.dir) (Sum.getLeft?_eq_some_iff.mp htask)).2 T hT
          exact .inl ⟨hij, hclear p hp⟩
        · exact .inr hj
      rcases htmp j hj with ⟨rfl, hfree⟩ | hj' <;> rcases htmp k hk with ⟨rfl, hfree'⟩ | hk'
      · rfl
      · exact absurd hk' (ne_of_tmpFree hfree k)
      · exact absurd hj' (ne_of_tmpFree hfree' j)
      · exact hs.tmp j k T hj' hk'
  | @step i o task n d hi hrun =>
    have hmove := hrun.move (hs.task i task hi)
    have htmp : ∀ j : Nat, (s.next i d n).tasks[j]?.bind StoreTask.tmp? = none ∨
        (s.next i d n).tasks[j]?.bind StoreTask.tmp? = s.tasks[j]?.bind StoreTask.tmp? := by
      intro j
      rw [tasks_next]
      split
      · subst j
        cases n with
        | inr a => exact .inl rfl
        | inl task' =>
          rw [hi]
          exact .inr (hmove.ok task' rfl).2
      · exact .inr rfl
    refine ⟨fun j task' hj => ?_, fun j k T hj hk => ?_⟩
    · rw [dir_next]
      rw [tasks_next] at hj
      split at hj
      · exact (hmove.ok task' (Sum.getLeft?_eq_some_iff.mp hj)).1
      · rename_i hij
        refine (hs.task j task' hj).mono fun T hT => hmove.temp T fun hT' => hij ?_
        exact hs.tmp i j T (by rw [hi]; exact hT') (by rw [hj]; exact hT)
    · have hold : ∀ j : Nat, (s.next i d n).tasks[j]?.bind StoreTask.tmp? = some T →
          s.tasks[j]?.bind StoreTask.tmp? = some T := by
        intro j hj
        rcases htmp j with hnone | hsame
        · rw [hnone] at hj
          cases hj
        · rwa [hsame] at hj
      exact hs.tmp j k T (hold j hj) (hold k hk)
  | @kill i =>
    have hold : ∀ {j : Nat} {task : StoreTask}, (s.tasks.erase i)[j]? = some task →
        s.tasks[j]? = some task := fun hj => (Lib.getElem?_of_erase hj).2
    refine ⟨fun j task hj => hs.task j task (hold hj), fun j k T hj hk => ?_⟩
    obtain ⟨u, hu, huT⟩ := Option.bind_eq_some_iff.mp hj
    obtain ⟨v, hv, hvT⟩ := Option.bind_eq_some_iff.mp hk
    exact hs.tmp j k T (by rw [hold hu]; exact huT) (by rw [hold hv]; exact hvT)
  | tick => exact ⟨fun j task hj => (hs.task j task hj).mono fun T _ => .inl rfl, hs.tmp⟩

theorem StoreSystem.sane_boot (dir : StoreDir) : (boot dir).Sane blake3 :=
  ⟨fun i t h => (by cases h), fun i j T h => by cases h⟩

/-! ## A chunk that is held -/

/-- A chunk is there for good: its file is intact, and no task is about to remove it. -/
structure StoreSystem.Holds (blake3 : Bytes → Text) (hash : Text) (s : StoreSystem) : Prop where
  intact : s.dir.Intact blake3 hash
  spares : ∀ (i : Nat) (t : StoreTask), s.tasks[i]? = some t → t.Spares hash

/-- A sweep keeps the chunk. -/
def SweepsKeep (hash : Text) : StoreEvent → Prop
  | .call _ (.sweep keep) => hash ∈ keep
  | _ => True

/-- A check for the chunk does not fail: one that does answers as if the chunk were missing. -/
def ChecksWork (hash : Text) (s : StoreSystem) : StoreEvent → Prop
  | .step i .fails => s.tasks[i]? ≠ some (.hasCheck hash)
  | _ => True

/-- What a call begins with spares a chunk that a sweep keeps. -/
theorem StoreRequest.begin_spares {r : StoreRequest} {now : Int}
    (hkeep : ∀ keep, r = .sweep keep → hash ∈ keep) (h : r.begin blake3 now = .inl task) :
    task.Spares hash := by
  cases r with
  | get | has | put =>
    unfold begin at h
    dsimp only at h
    split at h
    · cases h
      trivial
    · cases h
  | sweep keep =>
    cases h
    exact hkeep keep rfl
  | sweepTmp =>
    cases h
    trivial

theorem StoreRequest.begin_answer {r : StoreRequest} {now : Int} (h : r.begin blake3 now = .inr a) :
    a = .failed := by
  cases r with
  | get | has | put =>
    unfold begin at h
    dsimp only at h
    split at h
    · cases h
    · cases h
      rfl
  | sweep | sweepTmp => cases h

/-- What a system call leads to spares a chunk: the task does, and the answer does not deny it when it
is there. -/
def NextSpares (checked there : Prop) (hash : Text) : StoreTask ⊕ StoreAnswer → Prop
  | .inl t => t.Spares hash
  | .inr a => there → ¬ a.Denies checked hash

theorem not_denies_notFound {h : Text} (hne : h ≠ hash) :
    ¬ (StoreAnswer.notFound h).Denies checked hash := by
  rintro (heq | ⟨-, heq⟩)
  · exact hne (StoreAnswer.notFound.inj heq)
  · cases heq

theorem not_denies_has {h : Text} {present : Bool} (himp : checked → h = hash → present = true) :
    ¬ (StoreAnswer.has h present).Denies checked hash := by
  rintro (heq | ⟨hchecked, heq⟩)
  · cases heq
  · obtain ⟨hh, hp⟩ := StoreAnswer.has.inj heq
    rw [himp hchecked hh] at hp
    cases hp

/-- The answers that deny no chunk. -/
theorem not_denies_of (hnot : ∀ h, a ≠ .notFound h) (hhas : ∀ h, a ≠ .has h false) :
    ¬ a.Denies checked hash := by
  rintro (heq | ⟨-, heq⟩)
  · exact hnot _ heq
  · exact hhas _ heq

theorem StoreTask.fails_spares (hspares : task.Spares hash) (hcheck : checked → task ≠ .hasCheck hash)
    (there : Prop) : NextSpares checked there hash task.fails := by
  cases task with
  | getRemove h => exact fun _ => not_denies_notFound hspares
  | hasCheck h =>
    exact fun _ => not_denies_has fun hchecked heq => absurd (congrArg hasCheck heq) (hcheck hchecked)
  | putCheck | tmpRemove => trivial
  | _ => exact fun _ => not_denies_of (fun h heq => by cases heq) fun h heq => by cases heq

/-- **A task that spares a chunk goes on sparing it** while its file, if it is there, is not torn, and
no answer of it denies a chunk that is there. -/
theorem TaskStep.spares {o : StoreOutcome} (h : TaskStep blake3 d task o n d')
    (hgood : ∀ data, d.chunks[hash]? = some data → blake3 data = hash) (hspares : task.Spares hash)
    (hcheck : checked → o = .fails → task ≠ .hasCheck hash) :
    NextSpares checked (d.Intact blake3 hash) hash n := by
  cases h with
  | failed => exact StoreTask.fails_spares hspares (fun hchecked => hcheck hchecked rfl) _
  | missing hnone =>
    rintro ⟨data, hdata, -⟩
    refine not_denies_notFound fun heq => ?_
    rw [heq, hdata] at hnone
    cases hnone
  | torn hdata hbad =>
    intro heq
    exact hbad ((hgood _ (heq ▸ hdata)).trans heq.symm)
  | removed => exact fun _ => not_denies_notFound hspares
  | checked =>
    rintro ⟨data, hdata, -⟩
    refine not_denies_has fun _ heq => ?_
    rw [heq, Std.ExtTreeMap.contains_eq_isSome_getElem?, hdata]
    rfl
  | doomed hname => exact ⟨hspares, fun heq => hname (heq ▸ hspares)⟩
  | kept => exact hspares
  | swept => exact hspares.1
  | renamed =>
    split
    · trivial
    · exact fun _ => not_denies_of (fun h heq => by cases heq) fun h heq => by cases heq
  | absent | dir | created | wrote | written | unsynced | synced | stale | fresh | unlinked => trivial
  | got | deduped | lost | flushed | listed | unswept | opened =>
    exact fun _ => not_denies_of (fun h heq => by cases heq) fun h heq => by cases heq

/-- An intact file is not torn. -/
theorem StoreDir.Intact.good (h : d.Intact blake3 hash) :
    ∀ data, d.chunks[hash]? = some data → blake3 data = hash := by
  obtain ⟨data, hdata, hhash⟩ := h
  intro data' hdata'
  rw [hdata] at hdata'
  exact Option.some.inj hdata' ▸ hhash

/-- A chunk that a task spares stays intact. -/
theorem TaskMove.intact (h : TaskMove blake3 task n d d') (hspares : task.Spares hash)
    (hintact : d.Intact blake3 hash) : d'.Intact blake3 hash := by
  rcases h.chunk hash with hsame | hintact' | ⟨-, hnot⟩
  · obtain ⟨data, hdata, hhash⟩ := hintact
    exact ⟨data, hsame.trans hdata, hhash⟩
  · exact hintact'
  · exact absurd hspares hnot

/-- **A chunk that is held stays so** in a step by which nobody sweeps it away. -/
theorem StoreSystem.holds_step (hs : s.Sane blake3) (hholds : s.Holds blake3 hash)
    (hkeep : SweepsKeep hash e) (hcheck : checked → ChecksWork hash s e)
    (h : s.step blake3 e = some s') : s'.Holds blake3 hash ∧
      ∃ new, s'.answers = new ++ s.answers ∧ ∀ a ∈ new, ¬ a.Denies checked hash := by
  cases step_move h with
  | @call i r hi hclear =>
    refine ⟨⟨?_, fun j task hj => ?_⟩, _, answers_next .., fun a ha => ?_⟩
    · rw [dir_next]
      exact hholds.intact
    · rw [tasks_next] at hj
      split at hj
      · refine StoreRequest.begin_spares (fun keep hr => ?_) (Sum.getLeft?_eq_some_iff.mp hj)
        subst hr
        exact hkeep
      · exact hholds.spares j task hj
    · have ha' := StoreRequest.begin_answer (Sum.getRight?_eq_some_iff.mp (Option.mem_toList.mp ha))
      subst ha'
      exact not_denies_of (fun h heq => by cases heq) fun h heq => by cases heq
  | @step i o task n d hi hrun =>
    have hmove := hrun.move (hs.task i task hi)
    have hspares := hholds.spares i task hi
    have hnext : NextSpares checked (s.dir.Intact blake3 hash) hash n := by
      refine hrun.spares hholds.intact.good hspares fun hchecked ho htask => ?_
      subst ho htask
      exact hcheck hchecked hi
    refine ⟨⟨?_, fun j task' hj => ?_⟩, _, answers_next .., fun a ha => ?_⟩
    · rw [dir_next]
      exact hmove.intact hspares hholds.intact
    · rw [tasks_next] at hj
      split at hj
      · rwa [Sum.getLeft?_eq_some_iff.mp hj] at hnext
      · exact hholds.spares j task' hj
    · rw [Sum.getRight?_eq_some_iff.mp (Option.mem_toList.mp ha)] at hnext
      exact hnext hholds.intact
  | kill =>
    exact ⟨⟨hholds.intact, fun j task hj => hholds.spares j task (Lib.getElem?_of_erase hj).2⟩, [], rfl,
      fun a ha => by cases ha⟩
  | tick => exact ⟨⟨hholds.intact, hholds.spares⟩, [], rfl, fun a ha => by cases ha⟩

theorem StoreSystem.holds_run (checked : Prop) {es : List StoreEvent} (hsane : s.Sane blake3)
    (hholds : s.Holds blake3 hash)
    (run : Lib.Run (StoreSystem.step blake3)
      (fun u e => SweepsKeep hash e ∧ (checked → ChecksWork hash u e)) s es t) :
    t.Holds blake3 hash ∧
      ∃ new, t.answers = new ++ s.answers ∧ ∀ a ∈ new, ¬ a.Denies checked hash := by
  have hkept := run.invariant (I := fun u => u.Sane blake3 ∧ u.Holds blake3 hash ∧
    ∃ new, u.answers = new ++ s.answers ∧ ∀ a ∈ new, ¬ a.Denies checked hash) ?_
    ⟨hsane, hholds, [], rfl, fun a ha => by cases ha⟩
  · exact hkept.2
  · rintro u e u' ⟨hs, hh, new, hnew, hdeny⟩ ⟨hkeep, hcheck⟩ h
    obtain ⟨hh', new', hnew', hdeny'⟩ := holds_step hs hh hkeep hcheck h
    refine ⟨sane_step hs h, hh', new' ++ new, ?_, fun a ha => ?_⟩
    · rw [hnew', hnew, List.append_assoc]
    · exact (List.mem_append.mp ha).elim (hdeny' a) (hdeny a)

/-- **A chunk that is held stays**, in every interleaving of any number of calls, whatever fails and
whoever is killed: until a sweep is called that does not keep it, its file stays and is intact, and no get
misses it; and while its checks work, none denies it. -/
theorem held_chunk_stays {es es' : List StoreEvent}
    (run : Lib.Run (StoreSystem.step blake3) (fun _ _ => True) (.boot dir) es s)
    (hholds : s.Holds blake3 hash)
    (run' : Lib.Run (StoreSystem.step blake3) (fun _ => SweepsKeep hash) s es' t) :
    t.Holds blake3 hash ∧ ∃ new, t.answers = new ++ s.answers ∧ .notFound hash ∉ new ∧
      (Lib.Run (StoreSystem.step blake3) (ChecksWork hash) s es' t → .has hash false ∉ new) := by
  have hsane := run.invariant (I := StoreSystem.Sane blake3)
    (fun _ _ _ hs _ h => StoreSystem.sane_step hs h) (StoreSystem.sane_boot dir)
  have hgets := StoreSystem.holds_run False hsane hholds
    (run'.mono fun u e hkeep => ⟨hkeep, False.elim⟩)
  obtain ⟨hheld, new, hnew, hdeny⟩ := hgets
  refine ⟨hheld, new, hnew, fun hmem => hdeny _ hmem (.inl rfl), fun hwork hmem => ?_⟩
  have hchecks := StoreSystem.holds_run True hsane hholds
    ((run'.and hwork).mono fun u e hc => ⟨hc.1, fun _ => hc.2⟩)
  obtain ⟨-, new', hnew', hdeny'⟩ := hchecks
  obtain rfl := List.append_cancel_right (hnew.symm.trans hnew')
  exact hdeny' _ hmem (.inr ⟨trivial, rfl⟩)

/-! ## A store of intact files -/

/-- An answer by which a chunk is there. -/
def StoreAnswer.Grants (hash : Text) (a : StoreAnswer) : Prop :=
  (∃ data, a = .got hash data) ∨ a = .has hash true ∨ ∃ written, a = .put hash written

/-- A store of intact files, where everybody keeps one chunk: a chunk that was found is there, and was
not denied since. -/
structure StoreSystem.Sound (blake3 : Bytes → Text) (checked : Prop) (hash : Text) (s : StoreSystem) :
    Prop where
  sane : s.Sane blake3
  files : ∀ (x : Text) (data : Bytes), s.dir.chunks[x]? = some data → blake3 data = x
  /-- No get is about to remove anything. -/
  gets : ∀ (i : Nat) (x : Text), s.tasks[i]? ≠ some (.getRemove x)
  spares : ∀ (i : Nat) (t : StoreTask), s.tasks[i]? = some t → t.Spares hash
  /-- A chunk that was found, or whose put is about to answer, is there. -/
  present : (∃ a ∈ s.answers, a.Grants hash) ∨
    (∃ (i : Nat) (p : PutCall), s.tasks[i]? = some (.putFlush p) ∧ p.hash = hash) →
    s.dir.Intact blake3 hash
  order : ∀ newer a older, s.answers = newer ++ a :: older → a.Grants hash →
    ∀ b ∈ newer, ¬ b.Denies checked hash

/-- What a system call leads to grants a chunk: the answer does, or the task is a put about to answer. -/
def NextGrants (hash : Text) : StoreTask ⊕ StoreAnswer → Prop
  | .inl t => ∃ p, t = .putFlush p ∧ p.hash = hash
  | .inr a => a.Grants hash

theorem StoreDir.intact_of_contains {h : Text}
    (hfiles : ∀ (x : Text) (data : Bytes), d.chunks[x]? = some data → blake3 data = x)
    (hc : d.chunks.contains h = true) : d.Intact blake3 h := by
  rw [Std.ExtTreeMap.contains_eq_isSome_getElem?] at hc
  obtain ⟨data, hdata⟩ := Option.isSome_iff_exists.mp hc
  exact ⟨data, hdata, hfiles h data hdata⟩

/-- **What grants a chunk has found it** or has put it there. -/
theorem TaskStep.grants {o : StoreOutcome} (h : TaskStep blake3 d task o n d')
    (hfiles : ∀ (x : Text) (data : Bytes), d.chunks[x]? = some data → blake3 data = x)
    (hok : task.Ok blake3 d) (hgrants : NextGrants hash n) :
    d'.Intact blake3 hash ∨ ∃ p, task = .putFlush p ∧ p.hash = hash := by
  cases h with
  | failed =>
    cases task with
    | putCheck | tmpRemove =>
      obtain ⟨p, hp, -⟩ := hgrants
      cases hp
    | _ => rcases hgrants with ⟨data, h⟩ | h | ⟨written, h⟩ <;> cases h
  | got hdata hhash =>
    rcases hgrants with ⟨data', heq⟩ | heq | ⟨written, heq⟩ <;> cases heq
    exact .inl ⟨_, hdata, hhash⟩
  | checked =>
    rcases hgrants with ⟨data, heq⟩ | heq | ⟨written, heq⟩
    · cases heq
    · obtain ⟨rfl, hc⟩ := StoreAnswer.has.inj heq
      exact .inl (StoreDir.intact_of_contains hfiles hc)
    · cases heq
  | deduped hc =>
    rcases hgrants with ⟨data, heq⟩ | heq | ⟨written, heq⟩ <;> cases heq
    exact .inl (StoreDir.intact_of_contains hfiles hc)
  | @renamed p f hf =>
    have hhash : p.hash = hash := by
      cases hdeferred : p.deferred with
      | true =>
        rw [hdeferred] at hgrants
        obtain ⟨q, hq, rfl⟩ := hgrants
        cases hq
        rfl
      | false =>
        rw [hdeferred] at hgrants
        rcases hgrants with ⟨data', heq⟩ | heq | ⟨written, heq⟩ <;> cases heq
        rfl
    refine .inl ⟨f.1, ?_, ?_⟩
    · dsimp only
      rw [hhash, Std.ExtTreeMap.getElem?_insert_self]
    · rw [hok.2 f hf, hok.1, hhash]
  | @flushed p =>
    rcases hgrants with ⟨data, heq⟩ | heq | ⟨written, heq⟩ <;> cases heq
    exact .inr ⟨p, rfl, rfl⟩
  | missing | removed | lost | listed | unswept | opened =>
    rcases hgrants with ⟨data, heq⟩ | heq | ⟨written, heq⟩ <;> cases heq
  | torn | absent | dir | created | wrote | written | unsynced | synced | doomed | kept | swept | stale
  | fresh | unlinked =>
    obtain ⟨p, hp, -⟩ := hgrants
    cases hp

/-- Over intact files a get removes nothing. -/
theorem TaskStep.gets {o : StoreOutcome} (h : TaskStep blake3 d task o n d')
    (hfiles : ∀ (x : Text) (data : Bytes), d.chunks[x]? = some data → blake3 data = x) (x : Text) :
    n ≠ .inl (.getRemove x) := by
  intro hn
  cases h with
  | torn hdata hbad => exact hbad (hfiles _ _ hdata)
  | failed => cases task <;> cases hn
  | renamed => split at hn <;> cases hn
  | _ => cases hn

/-- Where a task or an answer of the next state comes from. -/
theorem NextGrants.of_next {u : StoreSystem} (hu : u = s.next i d n)
    (h : (∃ a ∈ u.answers, a.Grants hash) ∨
      ∃ (j : Nat) (p : PutCall), u.tasks[j]? = some (.putFlush p) ∧ p.hash = hash) :
    NextGrants hash n ∨ (∃ a ∈ s.answers, a.Grants hash) ∨
      ∃ (j : Nat) (p : PutCall), j ≠ i ∧ s.tasks[j]? = some (.putFlush p) ∧ p.hash = hash := by
  subst hu
  rcases h with ⟨a, ha, hgrants⟩ | ⟨j, p, hj, hp⟩
  · rw [StoreSystem.answers_next] at ha
    rcases List.mem_append.mp ha with ha | ha
    · rw [Sum.getRight?_eq_some_iff.mp (Option.mem_toList.mp ha)]
      exact .inl hgrants
    · exact .inr (.inl ⟨a, ha, hgrants⟩)
  · rw [StoreSystem.tasks_next] at hj
    split at hj
    · rw [Sum.getLeft?_eq_some_iff.mp hj]
      exact .inl ⟨p, rfl, hp⟩
    · exact .inr (.inr ⟨j, p, Ne.symm ‹_›, hj, hp⟩)

/-- An answer that follows the others denies a chunk only when none of them grants it. -/
theorem order_append {new old : List StoreAnswer} (hnew : ∀ a ∈ new, a.Denies checked hash →
      ∀ b ∈ old, ¬ b.Grants hash) (hone : new.length ≤ 1)
    (hold : ∀ newer a older, old = newer ++ a :: older → a.Grants hash →
      ∀ b ∈ newer, ¬ b.Denies checked hash) :
    ∀ newer a older, new ++ old = newer ++ a :: older → a.Grants hash →
      ∀ b ∈ newer, ¬ b.Denies checked hash := by
  intro newer a older h hgrants
  match new, hone with
  | [], _ => exact hold newer a older h hgrants
  | [c], _ =>
    cases newer with
    | nil => exact fun b hb => by cases hb
    | cons b newer =>
      obtain ⟨rfl, hrest⟩ := List.cons.inj h
      intro b' hb'
      rcases List.mem_cons.mp hb' with rfl | hb'
      · intro hdenies
        refine hnew _ List.mem_cons_self hdenies a ?_ hgrants
        rw [show old = newer ++ a :: older from hrest]
        exact List.mem_append_right _ List.mem_cons_self
      · exact hold newer a older hrest hgrants b' hb'

/-- A task's next state, from what its call does. -/
theorem StoreSystem.Sound.next (hs : s.Sound blake3 checked hash) (hsane : (s.next i d n).Sane blake3)
    (hfiles : ∀ (x : Text) (data : Bytes), d.chunks[x]? = some data → blake3 data = x)
    (hgets : ∀ x, n ≠ .inl (.getRemove x)) (hspares : NextSpares checked (s.dir.Intact blake3 hash) hash n)
    (hkeep : s.dir.Intact blake3 hash → d.Intact blake3 hash)
    (hgrants : NextGrants hash n → d.Intact blake3 hash ∨
      ∃ (j : Nat) (p : PutCall), s.tasks[j]? = some (.putFlush p) ∧ p.hash = hash) :
    (s.next i d n).Sound blake3 checked hash where
  sane := hsane
  files := by
    rw [dir_next]
    exact hfiles
  gets := fun j x hj => by
    rw [tasks_next] at hj
    split at hj
    · exact hgets x (Sum.getLeft?_eq_some_iff.mp hj)
    · exact hs.gets j x hj
  spares := fun j task hj => by
    rw [tasks_next] at hj
    split at hj
    · rwa [Sum.getLeft?_eq_some_iff.mp hj] at hspares
    · exact hs.spares j task hj
  present := fun h => by
    rw [dir_next]
    rcases NextGrants.of_next rfl h with hn | hold | ⟨j, p, -, hj, hp⟩
    · exact (hgrants hn).elim id fun hflush => hkeep (hs.present (.inr hflush))
    · exact hkeep (hs.present (.inl hold))
    · exact hkeep (hs.present (.inr ⟨j, p, hj, hp⟩))
  order := by
    rw [answers_next]
    refine order_append (fun a ha hdenies b hb hg => ?_) ?_ hs.order
    · rw [Sum.getRight?_eq_some_iff.mp (Option.mem_toList.mp ha)] at hspares
      exact hspares (hs.present (.inl ⟨b, hb, hg⟩)) hdenies
    · cases n <;> simp

/-- What a call begins with grants nothing, and removes nothing. -/
theorem StoreRequest.begin_grants (r : StoreRequest) (now : Int) :
    ¬ NextGrants hash (r.begin blake3 now) ∧ ∀ x, r.begin blake3 now ≠ .inl (.getRemove x) := by
  cases r with
  | get | has | put =>
    unfold begin
    dsimp only
    split
    · refine ⟨?_, fun x hx => by cases hx⟩
      rintro ⟨p, hp, -⟩
      cases hp
    · refine ⟨?_, fun x hx => by cases hx⟩
      rintro (⟨data, heq⟩ | heq | ⟨written, heq⟩) <;> cases heq
  | sweep | sweepTmp =>
    refine ⟨?_, fun x hx => by cases hx⟩
    rintro ⟨p, hp, -⟩
    cases hp

/-- **A step keeps a store of intact files**, where everybody keeps the chunk. -/
theorem StoreSystem.sound_step (hs : s.Sound blake3 checked hash) (hkeep : SweepsKeep hash e)
    (hcheck : checked → ChecksWork hash s e) (h : s.step blake3 e = some s') :
    s'.Sound blake3 checked hash := by
  have hsane := sane_step hs.sane h
  cases step_move h with
  | @call i r hi hclear =>
    have hbegin : ¬ NextGrants hash (r.begin blake3 s.dir.now) ∧
        ∀ x, r.begin blake3 s.dir.now ≠ .inl (.getRemove x) := StoreRequest.begin_grants r s.dir.now
    obtain ⟨hgrants, hgets⟩ := hbegin
    refine hs.next hsane hs.files hgets ?_ id fun hn => absurd hn hgrants
    cases hr : r.begin blake3 s.dir.now with
    | inl task =>
      refine StoreRequest.begin_spares (fun keep hsweep => ?_) hr
      subst hsweep
      exact hkeep
    | inr a =>
      rw [StoreRequest.begin_answer hr]
      exact fun _ => not_denies_of (fun h heq => by cases heq) fun h heq => by cases heq
  | @step i o task n d hi hrun =>
    have hmove := hrun.move (hs.sane.task i task hi)
    refine hs.next hsane (fun x data hx => ?_) (hrun.gets hs.files) ?_
      (hmove.intact (hs.spares i task hi)) fun hn => ?_
    · rcases hmove.chunk x with hsame | hintact | ⟨hnone, -⟩
      · exact hs.files x data (hsame ▸ hx)
      · exact hintact.good data hx
      · rw [hnone] at hx
        cases hx
    · refine hrun.spares (hs.files hash) (hs.spares i task hi) fun hchecked ho htask => ?_
      subst ho htask
      exact hcheck hchecked hi
    · refine (hrun.grants hs.files (hs.sane.task i task hi) hn).imp_right ?_
      rintro ⟨p, rfl, hp⟩
      exact ⟨i, p, hi, hp⟩
  | @kill i =>
    have hold : ∀ {j : Nat} {task : StoreTask}, (s.tasks.erase i)[j]? = some task →
        s.tasks[j]? = some task := fun hj => (Lib.getElem?_of_erase hj).2
    refine ⟨hsane, hs.files, fun j x hj => hs.gets j x (hold hj), fun j task hj =>
      hs.spares j task (hold hj), fun h => hs.present (h.imp_right ?_), hs.order⟩
    rintro ⟨j, p, hj, hp⟩
    exact ⟨j, p, hold hj, hp⟩
  | tick => exact ⟨hsane, hs.files, hs.gets, hs.spares, hs.present, hs.order⟩

theorem StoreSystem.sound_boot
    (hfiles : ∀ (x : Text) (data : Bytes), dir.chunks[x]? = some data → blake3 data = x) :
    (boot dir).Sound blake3 checked hash where
  sane := sane_boot dir
  files := hfiles
  gets := fun i x h => by cases h
  spares := fun i t h => by cases h
  present := fun h => by
    rcases h with ⟨a, ha, -⟩ | ⟨i, p, h, -⟩
    · cases ha
    · cases h
  order := fun newer a older h => by
    have hlen := congrArg List.length h
    simp [boot] at hlen

theorem StoreSystem.sound_run (checked : Prop) {es : List StoreEvent}
    (hfiles : ∀ (x : Text) (data : Bytes), dir.chunks[x]? = some data → blake3 data = x)
    (run : Lib.Run (StoreSystem.step blake3)
      (fun u e => SweepsKeep hash e ∧ (checked → ChecksWork hash u e)) (.boot dir) es t) :
    t.Sound blake3 checked hash :=
  run.invariant (I := Sound blake3 checked hash) (fun _ _ _ hs hc h => sound_step hs hc.1 hc.2 h)
    (sound_boot hfiles)

/-- **What was found once stays found.** In a store whose files are intact they stay so, whatever fails
and whoever is killed, and no get is about to remove one; and where every sweep keeps a chunk, one that a
get, a check or a put has found or stored is there, no later get misses it, and while its checks work none
denies it. -/
theorem found_chunk_stays_found {es : List StoreEvent}
    (hfiles : ∀ (x : Text) (data : Bytes), dir.chunks[x]? = some data → blake3 data = x)
    (run : Lib.Run (StoreSystem.step blake3) (fun _ => SweepsKeep hash) (.boot dir) es t) :
    (∀ (x : Text) (data : Bytes), t.dir.chunks[x]? = some data → blake3 data = x) ∧
      (∀ (i : Nat) (x : Text), t.tasks[i]? ≠ some (.getRemove x)) ∧
      ∀ newer a older, t.answers = newer ++ a :: older → a.Grants hash →
        t.dir.Intact blake3 hash ∧ .notFound hash ∉ newer ∧
          (Lib.Run (StoreSystem.step blake3) (ChecksWork hash) (.boot dir) es t →
            .has hash false ∉ newer) := by
  have hsound := StoreSystem.sound_run False hfiles
    (run.mono fun u e hkeep => ⟨hkeep, False.elim⟩)
  refine ⟨hsound.files, hsound.gets, fun newer a older h hgrants => ⟨?_, fun hmem => ?_,
    fun hwork hmem => ?_⟩⟩
  · refine hsound.present (.inl ⟨a, ?_, hgrants⟩)
    rw [h]
    exact List.mem_append_right _ List.mem_cons_self
  · exact hsound.order newer a older h hgrants _ hmem (.inl rfl)
  · have hchecked := StoreSystem.sound_run True hfiles
      ((run.and hwork).mono fun u e hc => ⟨hc.1, fun _ => hc.2⟩)
    exact hchecked.order newer a older h hgrants _ hmem (.inr ⟨trivial, rfl⟩)

end

/-! ## Runs -/

/-- A name, and a hash under which it has one byte. -/
def byteName : Text := .replicate 64 'a'
def byteHash (b : Bytes) : Text := if b = [1] then byteName else .replicate 64 'b'

/-- The put of this byte, call by call. -/
def putByte (i : Nat) : List StoreEvent :=
  [.call i (.put { hash := byteName, data := [1], tmp := "aa/.tmp-7-0".toList, deferred := true }),
    .step i .done, .step i .done, .step i .done, .step i (.wrote 1), .step i .done, .step i .done,
    .step i .done]

/-- A sweep that keeps it runs between the steps of a check and of a get. -/
def readByte : List StoreEvent :=
  [.call 1 (.has byteName), .call 2 (.sweep [byteName]), .call 3 (.get byteName),
    .step 2 (.found byteName), .step 1 .done, .step 2 .done, .step 3 .done]

/-- An empty store. -/
def noChunks : StoreDir := { chunks := ∅, temps := ∅, now := 0 }

/-- No step fails, and every sweep keeps the byte. -/
def sparesByte : StoreEvent → Bool
  | .call _ (.sweep keep) => byteName ∈ keep
  | .step _ .fails => false
  | _ => true

theorem sweepsKeep_of_sparesByte (_ : StoreSystem) (e : StoreEvent) (h : sparesByte e = true) :
    SweepsKeep byteName e := by
  cases e with
  | call i r =>
    cases r with
    | sweep keep =>
      have hkeep : byteName ∈ keep := of_decide_eq_true h
      exact hkeep
    | get | has | put | sweepTmp => trivial
  | step | kill | tick => trivial

theorem checksWork_of_sparesByte (s : StoreSystem) (e : StoreEvent) (h : sparesByte e = true) :
    ChecksWork byteName s e := by
  cases e with
  | step i o =>
    cases o with
    | fails => cases h
    | wrote | found | done => trivial
  | call | kill | tick => trivial

/-- The byte is found after it was put. -/
theorem found_chunk_stays_found_byte : ∃ t,
    Lib.Run (StoreSystem.step byteHash) (fun _ => SweepsKeep byteName) (.boot noChunks)
      (putByte 0 ++ readByte) t ∧
    Lib.Run (StoreSystem.step byteHash) (ChecksWork byteName) (.boot noChunks)
      (putByte 0 ++ readByte) t ∧
    t.answers = [.got byteName [1], .swept 0 0, .has byteName true, .put byteName true] ∧
      t.dir.Intact byteHash byteName := by
  have hrun : (Lib.replay (fun s e => if sparesByte e then StoreSystem.step byteHash s e else none)
      (.boot noChunks) (putByte 0 ++ readByte)).map (·.answers) =
      some [.got byteName [1], .swept 0 0, .has byteName true, .put byteName true] := by
    decide +kernel
  obtain ⟨t, ht, hanswers⟩ := Option.map_eq_some_iff.mp hrun
  have run := Lib.Run.of_replay_if (C := fun _ => SweepsKeep byteName) sweepsKeep_of_sparesByte ht
  have hput : (StoreAnswer.put byteName true).Grants byteName := .inr (.inr ⟨true, rfl⟩)
  exact ⟨t, run, Lib.Run.of_replay_if checksWork_of_sparesByte ht, hanswers,
    ((found_chunk_stays_found (fun x data hx => by cases hx) run).2.2
      [.got byteName [1], .swept 0 0, .has byteName true] _ [] hanswers hput).1⟩

/-- A store where the file of the byte is torn. -/
def tornChunk : StoreDir := { noChunks with chunks := (∅ : ChunkStore).insert byteName [] }

/-- Where the file is torn and one get removes it, a byte that is put again is held. -/
theorem held_chunk_stays_byte : ∃ s t,
    Lib.Run (StoreSystem.step byteHash) (fun _ _ => True) (.boot tornChunk)
      (.call 1 (.get byteName) :: .step 1 .done :: .step 1 .done :: putByte 0) s ∧
    Lib.Run (StoreSystem.step byteHash) (fun _ => SweepsKeep byteName) s readByte t ∧
      t.Holds byteHash byteName := by
  have hrun : (Lib.replay (StoreSystem.step byteHash) (.boot tornChunk)
      (.call 1 (.get byteName) :: .step 1 .done :: .step 1 .done :: putByte 0)).map
        (fun s => (s.dir.chunks[byteName]?, s.tasks.keys)) = some (some [1], []) := by
    decide +kernel
  have hread : ((Lib.replay (StoreSystem.step byteHash) (.boot tornChunk)
      (.call 1 (.get byteName) :: .step 1 .done :: .step 1 .done :: putByte 0)).bind fun s =>
        Lib.replay (fun s e => if sparesByte e then StoreSystem.step byteHash s e else none) s
          readByte).isSome = true := by
    decide +kernel
  obtain ⟨s, hs, hstate⟩ := Option.map_eq_some_iff.mp hrun
  obtain ⟨hchunk, htasks⟩ := Prod.mk.inj hstate
  rw [hs] at hread
  obtain ⟨t, ht⟩ := Option.isSome_iff_exists.mp hread
  have run := Lib.Run.of_replay (C := fun _ _ => True) (fun _ _ _ => trivial) hs
  have run' := Lib.Run.of_replay_if (C := fun _ => SweepsKeep byteName) sweepsKeep_of_sparesByte ht
  refine ⟨s, t, run, run', (held_chunk_stays run ⟨⟨[1], hchunk, rfl⟩, fun i task hi => ?_⟩ run').1⟩
  have hmem : i ∈ s.tasks.keys := Lib.mem_keys_iff.mpr (by rw [hi]; exact Option.some_ne_none _)
  rw [htasks] at hmem
  cases hmem

/-- Two gets find the file torn: the slower one removes the byte that was put in between, and the put
was answered. Nobody has swept anything. -/
theorem torn_chunk_loses_put :
    (Lib.replay (StoreSystem.step byteHash) (.boot tornChunk)
      (.call 1 (.get byteName) :: .call 2 (.get byteName) :: .step 1 .done :: .step 2 .done ::
        .step 1 .done :: putByte 0 ++
        [.step 2 .done, .call 3 (.has byteName), .step 3 .done])).map (·.answers) =
      some [.has byteName false, .notFound byteName, .put byteName true, .notFound byteName] := by
  decide +kernel

end Pear
